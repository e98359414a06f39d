import LetScript.Proofs.Machine

/-!
# The machine reads what the routines read

A procedure agrees with a routine where it gives what the routine gives from the cursor of the
machine's window, and leaves the machine as it was but for the window, which has come to where the
routine stops. This is closed under the ways in which procedures are put together. A frame is left
again in any case, and so it is for a block that is called, hence what agrees inside agrees outside.

How deep the routines of a level may go is told by the level. A machine tells it by the frames it
has entered: the two agree if the level has as many as the machine may still enter.
-/

namespace LetScript

/-- What is known of the machines that a procedure is run on. -/
structure Scope where
  table : Table
  nesting : Nat
  /-- How many tokens are left at most. -/
  bound : Nat

/-- The machine has drawn its window, and is within the scope. -/
structure Machine.In (m : Machine) (scope : Scope) : Prop where
  drawn : m.window.Drawn
  table_eq : m.table = scope.table
  nesting_eq : m.nesting = scope.nesting
  length_le : m.window.cursor.tokens.length ≤ scope.bound

theorem Machine.In.mono {m : Machine} {scope : Scope} {less : Nat}
    (h : m.In { scope with bound := less }) (hle : less ≤ scope.bound) : m.In scope :=
  ⟨h.drawn, h.table_eq, h.nesting_eq, Nat.le_trans h.length_le hle⟩

/-- It is still within the scope when it has moved on, whatever was recorded. -/
theorem Machine.In.moved {m : Machine} {scope : Scope} (h : m.In scope) {window : Window}
    (hdrawn : window.Drawn)
    (hless : window.cursor.tokens.length < m.window.cursor.tokens.length)
    (diagnostics : List Diagnostic) : ({ m with window, diagnostics } : Machine).In scope :=
  ⟨hdrawn, h.table_eq, h.nesting_eq, Nat.le_of_lt (Nat.lt_of_lt_of_le hless h.length_le)⟩

/-- Where a token is left, one round less is enough for what comes after it. -/
theorem Machine.In.bound_lt {m : Machine} {scope : Scope} {rounds : Nat} (h : m.In scope)
    (hleft : m.window.cursor.tokens ≠ []) (hrounds : scope.bound < rounds + 1) :
    scope.bound - 1 < rounds := by
  have hpos := List.length_pos_iff.mpr hleft
  have hlength := h.length_le
  omega

namespace Procedure

variable {α β γ : Type} {scope : Scope}

/-- The procedure comes to the result, and only moves the window, to the place of the cursor. -/
def Does (procedure : Procedure α) (m : Machine) (outcome : Except Diagnostic α × Cursor) : Prop :=
  ∃ operations window, procedure m = some (outcome.1, operations) ∧
    m.after operations = { m with window } ∧ window.Drawn ∧ window.cursor = outcome.2

/-- The procedure does what the routine does, on every machine of the scope. -/
def Agrees (procedure : Procedure α) (routine : Routine α) (scope : Scope) : Prop :=
  ∀ m : Machine, m.In scope → procedure.Does m (routine.run m.window.cursor)

theorem bind_of_ok {first : Procedure α} {m : Machine} {value : α}
    {done : List Machine.Operation} (h : first m = some (.ok value, done))
    (next : α → Procedure β) : (first >>= next) m =
      (next value (m.after done)).map fun (result, more) => (result, done ++ more) := by
  change Procedure.bind first next m = _
  rw [Procedure.bind, h]

/-- The operations of the second procedure follow those of the first. -/
theorem bind_eq_some {first : Procedure α} {next : α → Procedure β} {m : Machine} {value : α}
    {done more : List Machine.Operation} {result : Except Diagnostic β}
    (hfirst : first m = some (.ok value, done))
    (hnext : next value (m.after done) = some (result, more)) :
    (first >>= next) m = some (result, done ++ more) := by
  rw [bind_of_ok hfirst, hnext]
  rfl

theorem bind_of_error {first : Procedure α} {m : Machine} {diagnostic : Diagnostic}
    {done : List Machine.Operation} (h : first m = some (.error diagnostic, done))
    (next : α → Procedure β) : (first >>= next) m = some (.error diagnostic, done) := by
  change Procedure.bind first next m = _
  rw [Procedure.bind, h]

/-- A run that is cut off in the first procedure is cut off. -/
theorem bind_of_none {first : Procedure α} {m : Machine} (h : first m = none)
    (next : α → Procedure β) : (first >>= next) m = none := by
  change Procedure.bind first next m = _
  rw [Procedure.bind, h]

/-- It does not matter which two of three procedures are put together first. -/
theorem bind_assoc (first : Procedure α) (next : α → Procedure β) (more : β → Procedure γ) :
    first >>= next >>= more = first >>= fun value => next value >>= more := by
  funext m
  rcases hfirst : first m with _ | ⟨diagnostic | value, done⟩
  · rw [bind_of_none hfirst, bind_of_none (bind_of_none hfirst next)]
  · rw [bind_of_error hfirst, bind_of_error (bind_of_error hfirst next)]
  · have hboth := bind_of_ok hfirst next
    rw [bind_of_ok hfirst]
    rcases hnext : next value (m.after done) with _ | ⟨diagnostic | other, rest⟩ <;>
      rw [hnext] at hboth
    · rw [bind_of_none hboth, bind_of_none hnext]
      rfl
    · rw [bind_of_error hboth, bind_of_error hnext]
      rfl
    · rw [bind_of_ok hboth, bind_of_ok hnext, Machine.after_append, Option.map_map]
      congr 1
      funext ⟨result, operations⟩
      exact congrArg (Prod.mk result) (List.append_assoc done rest operations)

/-- One operation, and what is done next. -/
theorem perform_bind (operation : Machine.Operation) (next : Unit → Procedure β) (m : Machine) :
    (perform operation >>= next) m =
      (next () (m.perform operation)).map fun (result, more) => (result, operation :: more) :=
  rfl

@[simp] theorem machine_bind (next : Machine → Procedure β) (m : Machine) :
    (machine >>= next) m = next m m := by
  change Procedure.bind machine next m = _
  rw [Procedure.bind]
  change (next m m).map _ = _
  rcases next m m with _ | ⟨_, _⟩ <;> rfl

@[simp] theorem current_bind (next : Token → Procedure β) (m : Machine) :
    (current >>= next) m = next m.window.current m := by
  change Procedure.bind current next m = _
  rw [Procedure.bind]
  change (next m.window.current m).map _ = _
  rcases next m.window.current m with _ | ⟨_, _⟩ <;> rfl

@[simp] theorem peekKind_bind (next : Kind → Procedure β) (m : Machine) :
    (peekKind >>= next) m = next m.window.peek.kind m := by
  change Procedure.bind peekKind next m = _
  rw [Procedure.bind]
  change (next m.window.peek.kind m).map _ = _
  rcases next m.window.peek.kind m with _ | ⟨_, _⟩ <;> rfl

namespace Does

variable {procedure : Procedure α} {m : Machine}

/-- What a procedure does is told by its run. -/
theorem of_run_eq {other : Procedure α} {outcome : Except Diagnostic α × Cursor}
    (h : procedure m = other m) (hother : other.Does m outcome) : procedure.Does m outcome := by
  rwa [Does, h]

/-- Nothing is done. -/
theorem of_eq (hdrawn : m.window.Drawn) {result : Except Diagnostic α}
    (h : procedure m = some (result, [])) : procedure.Does m (result, m.window.cursor) :=
  ⟨[], m.window, h, rfl, hdrawn, rfl⟩

theorem advance (hdrawn : m.window.Drawn) :
    advance.Does m (.ok (), m.window.cursor.advance) :=
  ⟨[.advance], m.window.advance, rfl, rfl, hdrawn.advance, hdrawn.cursor_advance⟩

/-- The second procedure goes on where the first one stops. -/
theorem bind {next : α → Procedure β} {value : α} {c : Cursor}
    {outcome : Except Diagnostic β × Cursor} (h : procedure.Does m (.ok value, c))
    (hnext : ∀ window : Window, window.Drawn → window.cursor = c →
      (next value).Does { m with window } outcome) : (procedure >>= next).Does m outcome := by
  obtain ⟨done, window, hrun, hafter, hdrawn, hcursor⟩ := h
  obtain ⟨more, last, hnextRun, hnextAfter, hlast⟩ := hnext window hdrawn hcursor
  refine ⟨done ++ more, last, bind_eq_some hrun (hafter ▸ hnextRun), ?_, hlast⟩
  rw [Machine.after_append, hafter, hnextAfter]

/-- The second procedure is not run where the first one fails. -/
theorem bind_error {diagnostic : Diagnostic} {c : Cursor}
    (h : procedure.Does m (.error diagnostic, c)) (next : α → Procedure β) :
    (procedure >>= next).Does m (.error diagnostic, c) := by
  obtain ⟨done, window, hrun, hrest⟩ := h
  exact ⟨done, window, bind_of_error hrun next, hrest⟩

/-- What is done between two operations, the second of which undoes the first, and the second one in
any case. -/
theorem around {first last : Machine.Operation} {outcome : Except Diagnostic α × Cursor}
    (h : procedure.Does (m.perform first) outcome)
    (hlast : ∀ window, ({ m.perform first with window } : Machine).perform last =
      { m with window }) :
    (perform first >>= fun _ => procedure.endingWith last).Does m outcome := by
  obtain ⟨done, window, hrun, hafter, hrest⟩ := h
  refine ⟨first :: (done ++ [last]), window, ?_, ?_, hrest⟩
  · rw [perform_bind, endingWith, hrun]
    rfl
  · rw [Machine.after_cons, Machine.after_append, hafter]
    exact hlast window

end Does

namespace Agrees

theorem mono {procedure : Procedure α} {routine : Routine α} (h : procedure.Agrees routine scope)
    {less : Nat} (hle : less ≤ scope.bound) :
    procedure.Agrees routine { scope with bound := less } :=
  fun m hin => h m (hin.mono hle)

theorem pure (value : α) : (pure value : Procedure α).Agrees (pure value) scope :=
  fun _ hin => .of_eq hin.drawn rfl

theorem bind {first : Procedure α} {routine : Routine α} {next : α → Procedure β}
    {more : α → Routine β} (h : first.Agrees routine scope)
    (hnext : ∀ value, (next value).Agrees (more value) scope) :
    (first >>= next).Agrees (routine >>= more) scope := by
  intro m hin
  have hfirst := h m hin
  have hreaches := routine.reaches m.window.cursor
  rw [Routine.run_bind]
  rcases hrun : routine.run m.window.cursor with ⟨diagnostic | value, after⟩
  · rw [hrun] at hfirst
    exact hfirst.bind_error next
  · rw [hrun] at hfirst hreaches
    refine hfirst.bind fun window hdrawn hcursor => ?_
    rw [← hcursor]
    refine hnext value _ ⟨hdrawn, hin.table_eq, hin.nesting_eq, ?_⟩
    exact Nat.le_trans (hcursor ▸ hreaches.length_tokens_le) hin.length_le

theorem ite {condition : Prop} [Decidable condition] {first second : Procedure α}
    {routine other : Routine α} (hfirst : first.Agrees routine scope)
    (hsecond : second.Agrees other scope) :
    (if condition then first else second).Agrees (if condition then routine else other) scope := by
  split
  · exact hfirst
  · exact hsecond

theorem current : current.Agrees .current scope := by
  intro m hin
  rw [Routine.run_current, hin.drawn.current_cursor]
  exact .of_eq hin.drawn rfl

theorem peekKind : peekKind.Agrees .peekKind scope := by
  intro m hin
  rw [Routine.run_peekKind, hin.drawn.peek_cursor]
  exact .of_eq hin.drawn rfl

theorem fail (cause : Cause) : (fail cause : Procedure α).Agrees (.fail cause) scope := by
  intro m hin
  rw [Routine.run_fail, Cursor.position, hin.drawn.current_cursor]
  exact .of_eq hin.drawn rfl

theorem advance : advance.Agrees .advance scope := fun _ hin => .advance hin.drawn

/-- What is read after advancing has one token less. -/
theorem advance_bind {next : Procedure α} {more : Routine α}
    (h : next.Agrees more { scope with bound := scope.bound - 1 }) :
    (Procedure.advance >>= fun _ => next).Agrees (Routine.advance >>= fun _ => more) scope := by
  intro m hin
  refine (Does.advance hin.drawn).bind fun window hdrawn hcursor => ?_
  rw [Routine.run_advance_bind, ← hcursor]
  refine h _ ⟨hdrawn, hin.table_eq, hin.nesting_eq, ?_⟩
  rw [hcursor, Cursor.tokens_advance, List.length_tail]
  exact Nat.sub_le_sub_right hin.length_le 1

theorem expectPeek (kind : Kind) : (expectPeek kind).Agrees (.expectPeek kind) scope := by
  intro m hin
  refine .of_run_eq (machine_bind _ m) ?_
  by_cases hkind : m.window.peek.kind = kind
  · rw [if_pos hkind, Routine.run_expectPeek_of_eq (by rw [hin.drawn.peek_cursor, hkind])]
    exact advance m hin
  · rw [if_neg hkind, Routine.run_expectPeek_of_ne (by rwa [hin.drawn.peek_cursor]),
      hin.drawn.peek_cursor]
    exact .of_eq hin.drawn rfl

theorem peekEndsStatement :
    peekEndsStatement.Agrees (.here >>= fun c => Pure.pure c.peekEndsStatement) scope := by
  intro m hin
  rw [Routine.run_here_bind, Routine.run_pure, hin.drawn.peekEndsStatement_cursor]
  exact ⟨[.askEnd], m.window, rfl, rfl, hin.drawn, rfl⟩

/-- It is not asked whether a return ends before a semicolon, but it does. -/
theorem peekEndsReturn :
    peekEndsReturn.Agrees (.here >>= fun c =>
      Pure.pure (decide (c.peek.kind = .semicolon ∨ c.peekEndsStatement))) scope := by
  intro m hin
  refine .of_run_eq (peekKind_bind _ m) ?_
  rw [Routine.run_here_bind, Routine.run_pure, ← hin.drawn.peek_cursor]
  split
  · rename_i hkind
    rw [decide_eq_true (.inl hkind)]
    exact pure true m hin
  · rename_i hkind
    rw [show decide _ = m.window.cursor.peekEndsStatement by simp [hkind]]
    exact peekEndsStatement m hin

theorem expectTerminator : expectTerminator.Agrees .expectTerminator scope :=
  peekEndsStatement.bind fun _ => .ite (.pure ()) (.expectPeek _)

/-- A procedure in a frame of its own agrees with a routine that the procedure agrees with in one
frame more. -/
theorem framed {procedure : Procedure α} {routine : Routine α}
    (h : procedure.Agrees routine { scope with nesting := scope.nesting + 1 })
    (hfree : scope.nesting < nestingLimit) : (framed procedure).Agrees routine scope := by
  intro m hin
  have hfree : m.nesting < nestingLimit := hin.nesting_eq ▸ hfree
  have henter : m.perform .enter = { m with nesting := m.nesting + 1 } := if_pos hfree
  refine .of_run_eq (machine_bind _ m) ?_
  rw [if_pos hfree]
  refine .around ?_ fun window => ?_
  · rw [henter]
    exact h _ ⟨hin.drawn, hin.table_eq, congrArg (· + 1) hin.nesting_eq, hin.length_le⟩
  · rw [henter]
    rfl

/-- Without a free frame it fails. -/
theorem framed_full {procedure : Procedure α} (hfull : scope.nesting = nestingLimit) :
    (Procedure.framed procedure).Agrees (.fail (.nestingTooDeep nestingLimit)) scope := by
  intro m hin
  have hfull : ¬ m.nesting < nestingLimit := by
    rw [hin.nesting_eq, hfull]
    exact Nat.lt_irrefl _
  refine .of_run_eq (machine_bind _ m) ?_
  rw [if_neg hfull]
  exact fail _ m hin

/-- The call for a block is over when the block has been read. -/
theorem called {procedure : Procedure α} {routine : Routine α}
    (h : procedure.Agrees routine scope) :
    (perform .callBlock >>= fun _ => procedure.endingWith .returnBlock).Agrees routine scope := by
  intro m hin
  refine .around ?_ fun window => rfl
  exact h (m.perform .callBlock) ⟨hin.drawn, hin.table_eq, hin.nesting_eq, hin.length_le⟩

/-- A loop agrees with one of the same test and an agreeing body, given as many rounds as tokens are
left, if its test finds nothing at the end of the input. -/
theorem whileNext {test : Machine → Option γ} {test' : Cursor → Option γ}
    {procedure : γ → α → Procedure α} {body : γ → α → Routine α}
    (htest : ∀ m : Machine, m.In scope → test m = test' m.window.cursor)
    (hend : ∀ c, c.tokens = [] → test' c = none)
    (h : ∀ found value, (procedure found value).Agrees (body found value) scope) {rounds : Nat}
    (hrounds : scope.bound < rounds) (value : α) :
    (Procedure.whileNext test procedure rounds value).Agrees (.whileNext test' body value)
      scope := by
  obtain ⟨table, nesting, bound⟩ := scope
  induction rounds generalizing bound value with
  | zero => contradiction
  | succ rounds ih =>
    intro m hin
    refine .of_run_eq (machine_bind _ m) ?_
    rw [htest m hin]
    cases hfound : test' m.window.cursor with
    | none =>
      rw [Routine.run_whileNext_of_eq_none hfound]
      exact .of_eq hin.drawn rfl
    | some found =>
      have hleft : m.window.cursor.tokens ≠ [] := fun hnil => by simp [hend _ hnil] at hfound
      have hless : bound - 1 < rounds := hin.bound_lt hleft hrounds
      rw [Routine.run_whileNext_of_eq_some hfound hleft]
      have hbody (found : γ) (value : α) :
          (procedure found value).Agrees (body found value) ⟨table, nesting, bound - 1⟩ :=
        (h found value).mono (Nat.sub_le bound 1)
      have hround := (hbody found value).bind fun next => ih next (bound - 1)
        (fun m hin => htest m (hin.mono (Nat.sub_le bound 1))) hbody hless
      have hadvance : Agrees _ _ ⟨table, nesting, bound⟩ := advance_bind hround
      exact hadvance m hin

/-- So does the loop over the members. -/
theorem readMembers {procedure : Procedure α} {member : Routine α}
    (h : procedure.Agrees member scope) {rounds : Nat} (hrounds : scope.bound < rounds) :
    (Procedure.readMembers rounds procedure).Agrees (LetScript.readMembers member) scope := by
  have htest (m : Machine) (hin : m.In scope) :
      (if m.window.peek.kind = .comma then some () else none) =
        if m.window.cursor.peek.kind = .comma then some () else none := by
    rw [hin.drawn.peek_cursor]
  have hend (c : Cursor) (hnil : c.tokens = []) :
      (if c.peek.kind = .comma then some () else none) = none := by
    simp [Cursor.peek, hnil, Token.endOfInput]
  refine .bind .peekKind fun kind => .ite (.bind .advance fun _ => .pure _) ?_
  refine .bind h fun first => ?_
  refine .bind (.whileNext htest hend (fun _ members => ?_) hrounds _) fun members => ?_
  · exact .bind h fun member => .pure _
  · exact .bind (.expectPeek _) fun _ => .pure _

theorem readIdentifier : readIdentifier.Agrees LetScript.readIdentifier scope :=
  .bind .current fun _ => .pure _

theorem readInteger : readInteger.Agrees LetScript.readInteger scope := by
  refine .bind .current fun token => ?_
  cases integerValue? token.literal with
  | none => exact .fail _
  | some value => exact .pure _

theorem readBoolean : readBoolean.Agrees LetScript.readBoolean scope :=
  .bind .current fun _ => .pure _

theorem readParameter : readParameter.Agrees LetScript.readParameter scope :=
  .bind (.expectPeek _) fun _ => .bind .current fun _ => .pure _

/-- The loop over the statements of a block agrees, too: it stops at the end of the input. -/
theorem readStmts {procedure : Procedure Stmt} {statement : Routine Stmt}
    (h : procedure.Agrees statement scope) {rounds : Nat} (hrounds : scope.bound < rounds) :
    (Procedure.readStmts procedure rounds).Agrees (LetScript.readStmts statement) scope := by
  obtain ⟨table, nesting, bound⟩ := scope
  induction rounds generalizing bound with
  | zero => contradiction
  | succ rounds ih =>
    intro m hin
    have hcurrent := hin.drawn.current_cursor
    refine .of_run_eq (current_bind _ m) ?_
    by_cases hclose : m.window.current.kind = .closeCurly
    · rw [if_pos hclose, run_readStmts_of_closeCurly (by rw [hcurrent, hclose])]
      exact .of_eq hin.drawn rfl
    · rw [if_neg hclose]
      by_cases hnil : m.window.cursor.tokens = []
      · rw [if_pos (hin.drawn.kind_current_iff.mpr hnil), run_readStmts_of_tokens_eq_nil hnil]
        exact fail _ m hin
      · have hless : bound - 1 < rounds := hin.bound_lt hnil hrounds
        rw [if_neg (mt hin.drawn.kind_current_iff.mp hnil),
          run_readStmts_of_ne hnil (by rwa [hcurrent])]
        have hrest := ih (bound - 1) (h.mono (Nat.sub_le bound 1)) hless
        have hadvance (first : Stmt) : Agrees _ _ ⟨table, nesting, bound⟩ :=
          advance_bind (hrest.bind fun rest => .pure (first :: rest))
        exact h.bind hadvance m hin

end Agrees

end Procedure

/-- The procedures agree with the routines of a level. -/
structure Procedures.Agree (inner : Procedures) (level : Level) (scope : Scope) : Prop where
  expr : ∀ power, (inner.expr power).Agrees (level.expr power) scope
  block : inner.block.Agrees level.block scope

namespace Procedures.Agree

variable {inner : Procedures} {level : Level} {scope : Scope} {rounds : Nat}

theorem readPrefixOp (h : inner.Agree level scope) :
    inner.readPrefixOp.Agrees level.readPrefixOp scope :=
  .bind .current fun _ => .bind .advance fun _ => .bind (h.expr _) fun _ => .pure _

theorem readGrouping (h : inner.Agree level scope) :
    inner.readGrouping.Agrees level.readGrouping scope :=
  .bind .advance fun _ => .bind (h.expr _) fun _ => .bind (.expectPeek _) fun _ => .pure _

theorem readConditional (h : inner.Agree level scope) :
    inner.readConditional.Agrees level.readConditional scope := by
  refine .bind .current fun token => .bind (.expectPeek _) fun _ => .bind .advance fun _ => ?_
  refine .bind (h.expr _) fun condition => .bind (.expectPeek _) fun _ => ?_
  refine .bind (.expectPeek _) fun _ => .bind h.block fun consequence => ?_
  refine .bind .peekKind fun kind => .ite ?_ (.pure _)
  exact .bind .advance fun _ => .bind (.expectPeek _) fun _ => .bind h.block fun _ => .pure _

theorem readFunction (h : inner.Agree level scope) (hrounds : scope.bound < rounds) :
    (inner.readFunction rounds).Agrees level.readFunction scope := by
  refine .bind .current fun token => .bind (.expectPeek _) fun _ => ?_
  refine .bind (.readMembers .readParameter hrounds) fun parameters => ?_
  exact .bind (.expectPeek _) fun _ => .bind h.block fun body => .pure _

theorem readArgument (h : inner.Agree level scope) :
    inner.readArgument.Agrees level.readArgument scope :=
  .bind .advance fun _ => h.expr _

theorem readCall (h : inner.Agree level scope) (hrounds : scope.bound < rounds) (callee : Expr) :
    (inner.readCall rounds callee).Agrees (level.readCall callee) scope :=
  .bind .current fun _ => .bind (.readMembers h.readArgument hrounds) fun _ => .pure _

/-- The power of an operator is looked up in the rules that the machine holds. -/
theorem readInfixOp (h : inner.Agree level scope) (left : Expr) :
    (inner.readInfixOp left).Agrees (level.readInfixOp scope.table left) scope := by
  refine .bind .current fun token => ?_
  intro m hin
  refine .of_run_eq (Procedure.machine_bind _ m) ?_
  rw [hin.table_eq]
  exact Procedure.Agrees.bind .advance (fun _ => .bind (h.expr _) fun _ => .pure _) m hin

theorem readPrefix (h : inner.Agree level scope) (hrounds : scope.bound < rounds)
    (rule : PrefixRule) : (inner.readPrefix rounds rule).Agrees (level.readPrefix rule) scope := by
  cases rule with
  | identifier => exact .readIdentifier
  | integer => exact .readInteger
  | boolean => exact .readBoolean
  | prefixOp => exact h.readPrefixOp
  | grouping => exact h.readGrouping
  | conditional => exact h.readConditional
  | function => exact h.readFunction hrounds

theorem readInfix (h : inner.Agree level scope) (hrounds : scope.bound < rounds) (rule : InfixRule)
    (left : Expr) :
    (inner.readInfix rounds rule left).Agrees (level.readInfix scope.table rule left) scope := by
  cases rule with
  | infixOp => exact h.readInfixOp left
  | call => exact h.readCall hrounds left

/-- An expression ends at the end of the input at the latest, if that has no rule after one. -/
theorem readNested (h : inner.Agree level scope) (hrounds : scope.bound < rounds)
    (heof : scope.table.infixRule .eof = none) (power : Power) :
    (inner.readNested rounds power).Agrees (level.readExpr scope.table power) scope := by
  have htest (m : Machine) (hin : m.In scope) :
      m.table.infixRuleAbove power m.window.peek.kind =
        scope.table.infixRuleAbove power m.window.cursor.peek.kind := by
    rw [hin.table_eq, hin.drawn.peek_cursor]
  have hend (c : Cursor) (hnil : c.tokens = []) :
      scope.table.infixRuleAbove power c.peek.kind = none := by
    simp [Cursor.peek, hnil, Token.endOfInput, Table.infixRuleAbove, heof]
  refine .bind .current fun token => ?_
  intro m hin
  refine .of_run_eq (Procedure.machine_bind _ m) ?_
  rw [hin.table_eq]
  cases scope.table.prefixRule token.kind with
  | none => exact Procedure.Agrees.fail _ m hin
  | some rule =>
    exact Procedure.Agrees.bind (h.readPrefix hrounds rule) (fun left =>
      .whileNext htest hend (h.readInfix hrounds) hrounds left) m hin

theorem readBinding (h : inner.Agree level scope) :
    inner.readBinding.Agrees level.readBinding scope := by
  refine .bind .current fun token => .bind (.expectPeek _) fun _ => .bind .current fun name => ?_
  refine .bind (.expectPeek _) fun _ => .bind .advance fun _ => .bind (h.expr _) fun value => ?_
  exact .bind .expectTerminator fun _ => .pure _

theorem readReturning (h : inner.Agree level scope) :
    inner.readReturning.Agrees level.readReturning scope := by
  have hroutine : level.readReturning = (do
      let token ← Routine.current
      if ← Routine.here >>= fun c =>
          pure (decide (c.peek.kind = .semicolon ∨ c.peekEndsStatement)) then
        Routine.expectTerminator
        return .returning token none
      else
        Routine.advance
        let value ← level.expr .lowest
        Routine.expectTerminator
        return .returning token (some value)) := by
    apply Routine.ext
    intro c
    simp [Level.readReturning]
  rw [hroutine]
  refine .bind .current fun token => .bind .peekEndsReturn fun ends => .ite ?_ ?_
  · exact .bind .expectTerminator fun _ => .pure _
  · refine .bind .advance fun _ => .bind (h.expr _) fun value => ?_
    exact .bind .expectTerminator fun _ => .pure _

theorem readExpression (h : inner.Agree level scope) :
    inner.readExpression.Agrees level.readExpression scope := by
  refine .bind .current fun token => .bind (h.expr _) fun value => .bind .peekKind fun kind => ?_
  exact .ite (.bind .advance fun _ => .pure _) (.pure _)

theorem readStmt (h : inner.Agree level scope) : inner.readStmt.Agrees level.readStmt scope := by
  refine .bind .current fun token => ?_
  cases token.kind with
  | kwLet => exact h.readBinding
  | kwReturn => exact h.readReturning
  | _ => exact h.readExpression

theorem readBody (h : inner.Agree level scope) (hrounds : scope.bound < rounds) :
    (inner.readBody rounds).Agrees level.readBlock scope :=
  .bind .current fun _ => .bind .advance fun _ => .bind (.readStmts h.readStmt hrounds) fun _ =>
    .pure _

end Procedures.Agree

/-- Whatever the rules of a table are, the procedures agree with the routines for the levels that
are free: at most as many calls are made inside one another, and no loop takes more rounds than
tokens are left. -/
theorem procedures_agree {table : Table} (heof : table.infixRule .eof = none)
    {rounds nesting bound : Nat} (hnesting : nesting ≤ nestingLimit)
    (hrounds : nestingLimit - nesting + bound + 1 < rounds) :
    (procedures rounds).Agree (table.level (nestingLimit - nesting)) ⟨table, nesting, bound⟩ := by
  induction rounds generalizing nesting with
  | zero => contradiction
  | succ rounds ih =>
    rw [procedures]
    by_cases hfree : nesting < nestingLimit
    · have hinner := ih hfree (by omega)
      have hlevels : nestingLimit - nesting = nestingLimit - (nesting + 1) + 1 := by omega
      have hbound : bound < rounds := by omega
      rw [hlevels, Table.level]
      exact ⟨fun power => .framed (hinner.readNested hbound heof power) hfree,
        .called (.framed (hinner.readBody hbound) hfree)⟩
    · have hfull : nesting = nestingLimit := by omega
      have hlevels : nestingLimit - nesting = 0 := by omega
      rw [hlevels, Table.level]
      exact ⟨fun _ => .framed_full hfull, .called (.framed_full hfull)⟩

/-- So does every reading. -/
theorem Reading.agrees {α : Type} {table : Table} (heof : table.infixRule .eof = none)
    {rounds nesting bound : Nat} (hnesting : nesting ≤ nestingLimit)
    (hrounds : nestingLimit - nesting + bound + 1 < rounds) (reading : Reading α) :
    (reading.procedure rounds).Agrees
      (reading.routine (table.level (nestingLimit - nesting)) table) ⟨table, nesting, bound⟩ := by
  have h := procedures_agree heof hnesting hrounds
  have hbound : bound < rounds := by omega
  cases reading with
  | expr power => exact h.expr power
  | block => exact h.block
  | stmt => exact h.readStmt
  | binding => exact h.readBinding
  | returning => exact h.readReturning
  | expression => exact h.readExpression
  | ofPrefixRule rule => exact h.readPrefix hbound rule
  | ofInfixRule rule left => exact h.readInfix hbound rule left

namespace Procedure

variable {α β : Type} {m : Machine} {scope : Scope}

/-- The procedure gives the value, moves the window to the place of the cursor and records the
diagnostics. -/
def Records (procedure : Procedure α) (m : Machine) (value : α) (recorded : List Diagnostic)
    (c : Cursor) : Prop :=
  ∃ operations window, procedure m = some (.ok value, operations) ∧
    m.after operations = { m with window, diagnostics := m.diagnostics ++ recorded } ∧
    window.Drawn ∧ window.cursor = c

namespace Records

variable {procedure : Procedure α} {value : α} {recorded : List Diagnostic} {c stop : Cursor}

theorem of_run_eq {other : Procedure α} (h : procedure m = other m)
    (hother : other.Records m value recorded c) : procedure.Records m value recorded c := by
  rwa [Records, h]

/-- A procedure that only moves the window records nothing. -/
theorem of_does (h : procedure.Does m (.ok value, c)) : procedure.Records m value [] c := by
  obtain ⟨done, window, hrun, hafter, hrest⟩ := h
  exact ⟨done, window, hrun, by rw [hafter, List.append_nil], hrest⟩

/-- What is recorded after another diagnostic. -/
theorem record {diagnostic : Diagnostic} {next : Unit → Procedure α}
    (h : (next ()).Records (m.perform (.record diagnostic)) value recorded c) :
    (perform (.record diagnostic) >>= next).Records m value (diagnostic :: recorded) c := by
  obtain ⟨done, window, hrun, hafter, hrest⟩ := h
  refine ⟨.record diagnostic :: done, window, ?_, ?_, hrest⟩
  · rw [perform_bind, hrun]
    rfl
  · rw [Machine.after_cons, hafter]
    simp [Machine.perform]

end Records

/-- Skipping takes no more rounds than tokens are left. -/
theorem skip_does {inside : Bool} {rounds : Nat} (hdrawn : m.window.Drawn)
    (hrounds : m.window.cursor.tokens.length < rounds) :
    (skip inside rounds).Does m (.ok (), m.window.cursor.skipBroken inside) := by
  induction rounds generalizing m with
  | zero => contradiction
  | succ rounds ih =>
    have hcurrent := hdrawn.current_cursor
    refine .of_run_eq (machine_bind _ m) ?_
    by_cases hnil : m.window.cursor.tokens = []
    · rw [if_pos (hdrawn.kind_current_iff.mpr hnil), Cursor.skipBroken_of_tokens_eq_nil hnil]
      exact .of_eq hdrawn rfl
    · rw [if_neg (mt hdrawn.kind_current_iff.mp hnil)]
      by_cases hsemicolon : m.window.current.kind = .semicolon ∧ m.window.openBraces = 0
      · rw [if_pos hsemicolon,
          Cursor.skipBroken_of_semicolon hsemicolon.2 (by rw [hcurrent, hsemicolon.1])]
        exact .of_eq hdrawn rfl
      · rw [if_neg hsemicolon]
        by_cases hclose : m.window.current.kind = .closeCurly ∧ inside ∧ m.window.openBraces = 0
        · obtain ⟨hkind, rfl, hzero⟩ := hclose
          rw [if_pos ⟨hkind, rfl, hzero⟩,
            Cursor.skipBroken_of_closeCurly hzero (by rw [hcurrent, hkind]), hdrawn.peek_cursor]
          by_cases hpeek : m.window.peek.kind = .semicolon
          · rw [if_pos hpeek, if_pos hpeek]
            exact .advance hdrawn
          · rw [if_neg hpeek, if_neg hpeek]
            exact .of_eq hdrawn rfl
        · have hless := Cursor.length_tokens_advance_lt hnil
          rw [if_neg hclose, Cursor.skipBroken_of_not hnil
            (by rw [hcurrent]; exact fun h => hsemicolon ⟨h.2, h.1⟩)
            (by rw [hcurrent]; exact fun h => hclose ⟨h.2.2, h.2.1, h.1⟩)]
          refine (Does.advance hdrawn).bind fun window hdrawn hcursor => ?_
          rw [← hcursor] at hless ⊢
          exact ih (m := { m with window }) hdrawn
            (Nat.lt_of_lt_of_le hless (Nat.le_of_lt_succ hrounds))

/-- After an attempt the machine goes on to the next one. -/
theorem goOn_records (attempt : Attempt) {rounds : Nat} (hdrawn : m.window.Drawn)
    (hcursor : m.window.cursor = attempt.stop) (hrounds : attempt.stop.tokens.length < rounds) :
    (goOn rounds attempt.result).Records m () attempt.diagnostic?.toList attempt.next := by
  obtain ⟨start, result, stop⟩ := attempt
  obtain rfl : m.window.cursor = stop := hcursor
  cases result with
  | ok tree => exact .of_does (.advance hdrawn)
  | error diagnostic =>
    let recorded := m.perform (.record diagnostic)
    refine .record (.of_run_eq (machine_bind _ _) (.of_does ?_))
    refine (skip_does (m := recorded) hdrawn hrounds).bind fun window hskipped hcursor => ?_
    have hadvance := Does.advance (m := { recorded with window }) hskipped
    rw [hcursor] at hadvance
    exact hadvance

/-- A program is read by reading a statement, going on to the next one, and reading the rest. -/
theorem readProgram_of_round {procedure : Procedure Stmt} {rounds : Nat}
    {result : Except Diagnostic Stmt} {done more rest : List Machine.Operation} {trees : List Stmt}
    (hleft : m.window.current.kind ≠ .eof) (hrun : procedure m = some (result, done))
    (hgo : goOn rounds result (m.after done) = some (.ok (), more))
    (hrest : readProgram procedure rounds ((m.after done).after more) = some (.ok trees, rest)) :
    readProgram procedure (rounds + 1) m =
      some (.ok (result.toOption.toList ++ trees), done ++ (more ++ rest)) := by
  have hattempt : attempt procedure m = some (.ok result, done) := by
    rw [attempt, hrun]
    rfl
  rw [readProgram, current_bind, if_neg hleft]
  refine bind_eq_some hattempt ?_
  cases result with
  | ok tree =>
    refine bind_eq_some hgo ?_
    rw [bind_of_ok hrest]
    exact congrArg (fun operations => some (_, operations)) (List.append_nil rest)
  | error diagnostic =>
    have hrecover : (goOn rounds (.error diagnostic) >>= fun _ => readProgram procedure rounds)
        (m.after done) = _ := bind_eq_some hgo hrest
    simp only [goOn, bind_assoc] at hrecover
    exact hrecover

/-- A round of reading a program is an attempt. It leaves the machine as it was but for the place it
stands at and the diagnostic of the attempt, and what comes after is read from there on. -/
theorem readProgram_round {procedure : Procedure Stmt} {statement : Routine Stmt}
    (h : procedure.Agrees statement scope) {rounds : Nat} (hin : m.In scope)
    (hleft : m.window.cursor.tokens ≠ []) (hrounds : m.window.cursor.tokens.length < rounds) :
    let attempt := Attempt.ofCursor statement m.window.cursor
    ∃ done window,
      m.after done =
          { m with window, diagnostics := m.diagnostics ++ attempt.diagnostic?.toList } ∧
        window.Drawn ∧ window.cursor = attempt.next ∧
        ∀ trees rest, readProgram procedure rounds (m.after done) = some (.ok trees, rest) →
          readProgram procedure (rounds + 1) m =
            some (.ok (attempt.statement?.toList ++ trees), done ++ rest) := by
  intro attempt
  obtain ⟨done, window, hrun, hafter, hdrawn, hcursor⟩ := h m hin
  have hstop := statement.length_tokens_run_le m.window.cursor
  have hwindow : (m.after done).window = window := by rw [hafter]
  rw [← hwindow] at hdrawn hcursor
  obtain ⟨more, next, hgo, hmore, hnext, hgoes⟩ :=
    goOn_records attempt hdrawn hcursor (Nat.lt_of_le_of_lt hstop hrounds)
  refine ⟨done ++ more, next, ?_, hnext, hgoes, fun trees rest hrest => ?_⟩
  · rw [Machine.after_append, hmore, hafter]
  · rw [Machine.after_append] at hrest
    have hkind := mt hin.drawn.kind_current_iff.mp hleft
    have hstatement : attempt.statement?.toList = attempt.result.toOption.toList := by
      rw [Attempt.statement?]
      cases attempt.result <;> rfl
    rw [hstatement, List.append_assoc]
    exact readProgram_of_round hkind hrun hgo hrest

/-- A program is read by one attempt after the other, each of which records its diagnostic. -/
theorem readProgram_records {procedure : Procedure Stmt} {statement : Routine Stmt}
    (h : procedure.Agrees statement scope) {rounds : Nat} (hin : m.In scope)
    (hrounds : m.window.cursor.tokens.length + 1 < rounds) :
    (readProgram procedure rounds).Records m
      (Attempt.program (attempts statement m.window.cursor)).statements
      (Attempt.diagnostics (attempts statement m.window.cursor))
      (endOfAttempts statement m.window.cursor) := by
  induction rounds generalizing m with
  | zero => contradiction
  | succ rounds ih =>
    by_cases hnil : m.window.cursor.tokens = []
    · refine .of_run_eq (current_bind _ m) ?_
      rw [if_pos (hin.drawn.kind_current_iff.mpr hnil), attempts_of_tokens_eq_nil hnil,
        endOfAttempts_of_nil hnil]
      exact .of_does (.of_eq hin.drawn rfl)
    · obtain ⟨done, window, hafter, hdrawn, hcursor, hround⟩ :=
        readProgram_round h hin hnil (Nat.lt_of_succ_lt_succ hrounds)
      have hless := Attempt.length_tokens_next_lt statement hnil
      rw [attempts_of_tokens_ne_nil hnil, endOfAttempts_of_ne hnil]
      rw [← hcursor] at hless ⊢
      have hlt : window.cursor.tokens.length + 1 < rounds := by omega
      obtain ⟨rest, last, hrest, hlast, hend⟩ := ih (hin.moved hdrawn hless _) hlt
      rw [hafter] at hround
      refine ⟨done ++ rest, last, ?_, ?_, hend⟩
      · rw [hround _ _ hrest, Attempt.statements_program_cons]
      · rw [Machine.after_append, hafter, hlast, Attempt.diagnostics_cons, List.append_assoc]

/-- The machine has come to an attempt of those that are made from its place on. It is as before but
for that place and the diagnostics of the attempts in between, and from there on it reads what is
left of the program. -/
theorem readProgram_at_attempt {procedure : Procedure Stmt} {statement : Routine Stmt}
    (h : procedure.Agrees statement scope) {rounds : Nat} (hin : m.In scope)
    (hrounds : m.window.cursor.tokens.length + 1 < rounds) {first second : List Attempt}
    (hsplit : attempts statement m.window.cursor = first ++ second) :
    ∃ done rest window left,
      readProgram procedure rounds m =
          some (.ok (Attempt.program (first ++ second)).statements, done ++ rest) ∧
        m.after done =
          { m with window, diagnostics := m.diagnostics ++ Attempt.diagnostics first } ∧
        window.Drawn ∧ attempts statement window.cursor = second ∧
        readProgram procedure left (m.after done) =
          some (.ok (Attempt.program second).statements, rest) := by
  induction first generalizing m rounds with
  | nil =>
    obtain ⟨rest, window, hrun, -⟩ := readProgram_records h hin hrounds
    rw [hsplit] at hrun
    refine ⟨[], rest, m.window, rounds, hrun, ?_, hin.drawn, hsplit, hrun⟩
    exact congrArg (fun diagnostics => { m with diagnostics }) (List.append_nil _).symm
  | cons attempt first ih =>
    obtain ⟨hleft, rfl, hlater⟩ := of_attempts_eq_cons hsplit
    obtain ⟨rounds, rfl⟩ : ∃ less, rounds = less + 1 := ⟨rounds - 1, by omega⟩
    obtain ⟨done, window, hafter, hdrawn, hcursor, hround⟩ :=
      readProgram_round h hin hleft (Nat.lt_of_succ_lt_succ hrounds)
    have hless := Attempt.length_tokens_next_lt statement hleft
    rw [← hcursor] at hless hlater
    have hlt : window.cursor.tokens.length + 1 < rounds := by omega
    obtain ⟨more, rest, last, left, hrun, hmore, hlast⟩ :=
      ih (hin.moved hdrawn hless _) hlt hlater
    rw [hafter] at hround
    refine ⟨done ++ more, rest, last, left, ?_, ?_, ?_⟩
    · rw [hround _ _ hrun, List.append_assoc, List.cons_append, Attempt.statements_program_cons]
    · rw [Machine.after_append, hafter, hmore, Attempt.diagnostics_cons, List.append_assoc]
    · rw [Machine.after_append, hafter]
      exact hlast

end Procedure

end LetScript
