import LetScript.Program.Reader
import LetScript.Proofs.Agreement

/-!
# What becomes of a machine

A machine is used step by step, by code of any kind: by what reads expressions, blocks, statements
and programs, by rules of any kind, and by whoever looks at the tokens in between. All of it is done
by the same few operations. So a machine that was used shows some token of its source with the next
one beside it, however often something failed on the way, and it never goes back.

What reads leaves a machine as it found it but for the place it stands at. The frames entered are
left again, whether it succeeds or fails in the middle of them, and nothing is recorded but by
reading a program, which records what it leaves out.
-/

namespace LetScript

/-- The tokens of a source from the n-th on are shown, and the count of open braces is that of the
opening ones up to there which no closing one is matched with, in other words whose closing one has
not come. -/
structure Shown (source : String) (file : Option String) (n : Nat) (current peek : Token)
    (openBraces : Nat) : Prop where
  current_eq : current = tokenAt source file n
  peek_eq : peek = tokenAt source file (n + 1)
  openBraces_eq : openBraces = (unmatched [] ((tokenize source file).take (n + 1))).length
  unclosed_eq : openBraces = unclosed ((tokenize source file).take (n + 1))

/-- One token more is counted as the one at the place. -/
theorem runningDepth_take_succ (source : String) (file : Option String) (depth n : Nat) :
    runningDepth depth ((tokenize source file).take (n + 1)) =
      (tokenAt source file n).kind.openBraces
        (runningDepth depth ((tokenize source file).take n)) := by
  rw [List.take_add_one, tokenAt, List.getD_eq_getElem?_getD]
  cases (tokenize source file)[n]? with
  | none => simp [Token.endOfInput, Kind.openBraces]
  | some token => simp [runningDepth]

namespace Cursor

variable {source : String} {file : Option String}

theorem tokens_iterate (c : Cursor) (n : Nat) : (advance^[n] c).tokens = c.tokens.drop n := by
  induction n with
  | zero => rfl
  | succ n ih => rw [Function.iterate_succ_apply', tokens_advance, ih, List.tail_drop]

/-- Whatever advancing comes to is come to in some number of steps, no more than tokens are left. -/
theorem Reaches.exists_iterate_le {start c : Cursor} (h : start.Reaches c) :
    ∃ n ≤ start.tokens.length, c = Cursor.advance^[n] start := by
  induction h with
  | refl => exact ⟨0, Nat.zero_le _, rfl⟩
  | advance _ ih =>
    obtain ⟨n, hle, rfl⟩ := ih
    by_cases hlt : n < start.tokens.length
    · exact ⟨n + 1, hlt, (Function.iterate_succ_apply' _ _ _).symm⟩
    · refine ⟨n, hle, advance_of_tokens_eq_nil ?_⟩
      rw [tokens_iterate, List.drop_eq_nil_of_le (Nat.le_of_not_lt hlt)]

theorem Reaches.exists_iterate {start c : Cursor} (h : start.Reaches c) :
    ∃ n, c = Cursor.advance^[n] start := by
  obtain ⟨n, -, heq⟩ := h.exists_iterate_le
  exact ⟨n, heq⟩

theorem finish_iterate (c : Cursor) (n : Nat) : (advance^[n] c).finish = c.finish := by
  induction n with
  | zero => rfl
  | succ n ih => rw [Function.iterate_succ_apply', finish_advance, ih]

/-- The token after `n` others is the n-th of the source. -/
theorem current_iterate (n : Nat) :
    (advance^[n] (ofString source file)).current = tokenAt source file n := by
  rw [current, tokens_iterate, finish_iterate, List.head?_drop, tokenAt, tokenize, Lexer.tokens,
    List.getD_eq_getElem?_getD]
  change (Lexer.ofString source file).content[n]?.getD _ = _
  by_cases hlt : n < (Lexer.ofString source file).content.length
  · rw [List.getElem?_append_left hlt]
    rfl
  · rw [List.getElem?_append_right (Nat.le_of_not_lt hlt),
      List.getElem?_eq_none (Nat.le_of_not_lt hlt)]
    cases n - (Lexer.ofString source file).content.length <;> rfl

theorem peek_iterate (n : Nat) :
    (advance^[n] (ofString source file)).peek = tokenAt source file (n + 1) := by
  rw [← current_advance, ← Function.iterate_succ_apply' advance, current_iterate]

theorem openBraces_iterate (n : Nat) :
    (advance^[n] (ofString source file)).openBraces =
      runningDepth 0 ((tokenize source file).take (n + 1)) := by
  rw [runningDepth_take_succ]
  induction n with
  | zero =>
    rw [← current_iterate]
    rfl
  | succ n ih =>
    rw [Function.iterate_succ_apply', runningDepth_take_succ, ← ih, ← peek_iterate]
    rfl

/-- The cursor shows the tokens of a source from the n-th on. -/
def StandsAt (c : Cursor) (source : String) (file : Option String) (n : Nat) : Prop :=
  Shown source file n c.current c.peek c.openBraces

/-- After `n` steps it is the n-th. -/
theorem standsAt_iterate {c : Cursor} {n : Nat} (h : c = advance^[n] (.ofString source file)) :
    c.StandsAt source file n := by
  subst h
  refine ⟨current_iterate n, peek_iterate n, ?_, ?_⟩
  · rw [openBraces_iterate, length_unmatched]
    rfl
  · rw [openBraces_iterate, runningDepth_zero]

end Cursor

namespace Window

theorem drawn_iterate (source : String) (file : Option String) (n : Nat) :
    (advance^[n] (ofString source file)).Drawn := by
  induction n with
  | zero => exact drawn_ofString source file
  | succ n ih =>
    rw [Function.iterate_succ_apply']
    exact ih.advance

/-- The cursor of a window that moved on is that of the source, moved on as often. -/
theorem cursor_iterate (source : String) (file : Option String) (n : Nat) :
    (advance^[n] (ofString source file)).cursor = Cursor.advance^[n] (.ofString source file) := by
  induction n with
  | zero => exact cursor_ofString source file
  | succ n ih =>
    rw [Function.iterate_succ_apply', Function.iterate_succ_apply', ← ih]
    exact (drawn_iterate source file n).cursor_advance

/-- The window shows the tokens of a source from the n-th on. -/
def StandsAt (window : Window) (source : String) (file : Option String) (n : Nat) : Prop :=
  Shown source file n window.current window.peek window.openBraces

/-- It does if its cursor shows them. -/
theorem Drawn.standsAt {source : String} {file : Option String} {window : Window} {n : Nat}
    (hdrawn : window.Drawn) (h : window.cursor.StandsAt source file n) :
    window.StandsAt source file n := by
  rwa [Cursor.StandsAt, hdrawn.current_cursor, hdrawn.peek_cursor] at h

/-- So does the window that moved on as often. -/
theorem standsAt_iterate {source : String} {file : Option String} {window : Window} {n : Nat}
    (h : window = advance^[n] (.ofString source file)) : window.StandsAt source file n := by
  have hdrawn : window.Drawn := h ▸ drawn_iterate source file n
  exact hdrawn.standsAt (Cursor.standsAt_iterate (h ▸ cursor_iterate source file n))

end Window

namespace Machine

/-- How often the operations advance. -/
def advances (operations : List Operation) : Nat :=
  operations.countP fun operation => operation matches .advance

/-- The window is moved by advancing and by nothing else. -/
theorem window_after (m : Machine) (operations : List Operation) :
    (m.after operations).window = Window.advance^[advances operations] m.window := by
  induction operations generalizing m with
  | nil => rfl
  | cons operation rest ih =>
    rw [after_cons, ih, advances, advances, List.countP_cons]
    cases operation with
    | enter =>
      rw [perform]
      split <;> rfl
    | _ => rfl

/-- What may become of a machine by using it, whatever operations are performed and whatever
procedure is run on it, to success or to failure. -/
inductive Reachable (source : String) (file : Option String) : Machine → Prop where
  | start : Reachable source file (.ofString source file)
  | perform {m : Machine} (operation : Operation) :
      Reachable source file m → Reachable source file (m.perform operation)
  | run {m : Machine} {α : Type} {procedure : Procedure α} {result : Except Diagnostic α}
      {operations : List Operation} (hrun : procedure m = some (result, operations)) :
      Reachable source file m → Reachable source file (m.after operations)

namespace Reachable

variable {source : String} {file : Option String} {m : Machine}

/-- It stands as many tokens on as it has advanced. -/
theorem exists_window_eq (h : Reachable source file m) :
    ∃ n, m.window = Window.advance^[n] (.ofString source file) := by
  have after {m : Machine} (operations : List Operation)
      (h : ∃ n, m.window = Window.advance^[n] (.ofString source file)) :
      ∃ n, (m.after operations).window = Window.advance^[n] (.ofString source file) := by
    obtain ⟨n, hwindow⟩ := h
    rw [window_after, hwindow, ← Function.iterate_add_apply]
    exact ⟨_, rfl⟩
  induction h with
  | start => exact ⟨0, rfl⟩
  | perform operation _ ih => exact after [operation] ih
  | run _ _ ih => exact after _ ih

theorem drawn (h : Reachable source file m) : m.window.Drawn := by
  obtain ⟨n, hwindow⟩ := h.exists_window_eq
  rw [hwindow]
  exact Window.drawn_iterate source file n

theorem nesting_le (h : Reachable source file m) : m.nesting ≤ nestingLimit := by
  induction h with
  | start => exact Nat.zero_le _
  | perform operation _ ih => exact nesting_perform_le ih operation
  | run _ _ ih => exact nesting_after_le ih _

end Reachable

end Machine

namespace Reader

/-- What may become of a reader by using it: rules are registered, levels are entered and left,
and routines or a whole program are read from where it stands. -/
inductive Reachable (source : String) (file : Option String) : Reader → Prop where
  | start : Reachable source file (.ofString source file)
  | withPrefixRule {reader : Reader} (kind : Kind) (rule : PrefixRule) :
      Reachable source file reader → Reachable source file (reader.withPrefixRule kind rule)
  | withInfixRule {reader : Reader} (kind : Kind) (power : Power) (rule : InfixRule) :
      Reachable source file reader → Reachable source file (reader.withInfixRule kind power rule)
  | enter {reader : Reader} : Reachable source file reader → Reachable source file reader.enter.2
  | leave {reader : Reader} : Reachable source file reader → Reachable source file reader.leave
  | run {reader : Reader} {α : Type} (routine : Routine α) :
      Reachable source file reader → Reachable source file (reader.run routine).2
  | readProgram {reader : Reader} :
      Reachable source file reader → Reachable source file reader.readProgram.2

/-- What is left is what was left of the source before. -/
theorem Reachable.reaches {source : String} {file : Option String} {reader : Reader}
    (h : Reachable source file reader) : (Cursor.ofString source file).Reaches reader.cursor := by
  induction h with
  | start => exact .refl
  | withPrefixRule _ _ _ ih => exact ih
  | withInfixRule _ _ _ _ ih => exact ih
  | @enter reader _ ih =>
    rw [Reader.enter]
    split <;> exact ih
  | leave _ ih => exact ih
  | run routine _ ih => exact ih.trans (routine.reaches _)
  | @readProgram reader _ ih => exact ih.trans (reaches_endOfAttempts reader.level.readStmt _).1

/-- Nothing that is left stands for the end of the input. -/
theorem Reachable.genuine {source : String} {file : Option String} {reader : Reader}
    (h : Reachable source file reader) : reader.cursor.Genuine :=
  Cursor.Genuine.of_reaches (fun _ => Lexer.kind_ne_eof_of_mem_content) h.reaches

end Reader

/-- Whatever was done with a machine or a reader before, it stands at some token of its source, and
whatever is done next, it does not go back. -/
theorem standsAt_of_reachable (source : String) (file : Option String) :
    (∀ m : Machine, m.Reachable source file → ∃ n, m.window.StandsAt source file n ∧
        ∀ operations, (m.after operations).window.StandsAt source file
          (n + Machine.advances operations)) ∧
      ∀ reader : Reader, reader.Reachable source file → ∃ n, reader.cursor.StandsAt source file n ∧
        (∀ {α : Type} (routine : Routine α), ∃ later ≥ n,
          (reader.run routine).2.cursor.StandsAt source file later) ∧
        ∃ later ≥ n, reader.readProgram.2.cursor.StandsAt source file later := by
  constructor
  · intro m h
    obtain ⟨n, hwindow⟩ := h.exists_window_eq
    refine ⟨n, Window.standsAt_iterate hwindow, fun operations => Window.standsAt_iterate ?_⟩
    rw [Machine.window_after, hwindow, ← Function.iterate_add_apply, Nat.add_comm]
  · intro reader h
    obtain ⟨n, hcursor⟩ := h.reaches.exists_iterate
    have later {c : Cursor} (hreaches : reader.cursor.Reaches c) :
        ∃ later ≥ n, c.StandsAt source file later := by
      obtain ⟨more, rfl⟩ := hreaches.exists_iterate
      refine ⟨more + n, Nat.le_add_left n more, Cursor.standsAt_iterate ?_⟩
      rw [hcursor, Function.iterate_add_apply]
    exact ⟨n, Cursor.standsAt_iterate hcursor, fun routine => later (routine.reaches _),
      later (reaches_endOfAttempts reader.level.readStmt _).1⟩

/-- A closing brace that comes too early takes nothing away from the opening ones after it. Here a
procedure advances past all the tokens and fails. -/
theorem standsAt_of_stray_braces :
    let source := "\x7d\x7b\x7d\x7d\x7b"
    let start := (Machine.ofString source none).perform (.withPrefixRule .eof .prefixOp)
    let m := start.after (List.replicate 7 .advance)
    m.window.openBraces = 1 ∧ ∃ n, m.window.StandsAt source none n ∧
      ∀ operations, (m.after operations).window.StandsAt source none
        (n + Machine.advances operations) := by
  intro source start m
  let procedure : Procedure Unit := fun m =>
    some (.error ⟨.unterminatedBlock, m.window.current.position⟩, List.replicate 7 .advance)
  have hrun : procedure start =
      some (.error ⟨.unterminatedBlock, start.window.current.position⟩,
        List.replicate 7 .advance) := rfl
  exact ⟨by decide +kernel,
    (standsAt_of_reachable source none).1 m (.run hrun (.perform _ .start))⟩

namespace Machine

/-- The reader in the place of a machine. -/
def reader (m : Machine) (h : m.nesting ≤ nestingLimit) : Reader where
  cursor := m.window.cursor
  table := m.table
  nesting := m.nesting
  diagnostics := m.diagnostics
  nesting_le := h

/-- The operations leave the rules and the frames entered as they were, and only add to the
diagnostics. In between there are never more frames than the limit. -/
structure Keeps (m : Machine) (operations : List Operation) (recorded : List Diagnostic) :
    Prop where
  table_eq : (m.after operations).table = m.table
  nesting_eq : (m.after operations).nesting = m.nesting
  diagnostics_eq : (m.after operations).diagnostics = m.diagnostics ++ recorded
  nesting_le : ∀ before, before <+: operations → (m.after before).nesting ≤ nestingLimit

/-- Reading anything takes no more rounds than frames are free and tokens are left, together, if the
end of the input has no rule after an expression. -/
theorem Reachable.does {source : String} {file : Option String} {m : Machine}
    (h : m.Reachable source file) (heof : m.table.infixRule .eof = none) {rounds : Nat}
    (hrounds : nestingLimit + m.window.cursor.tokens.length + 2 ≤ rounds) {α : Type}
    (reading : Reading α) :
    (reading.procedure rounds).Does m
      ((reading.routine (m.table.level (nestingLimit - m.nesting)) m.table).run
        m.window.cursor) :=
  reading.agrees heof h.nesting_le (by omega) m ⟨h.drawn, rfl, rfl, Nat.le_refl _⟩

/-- So does reading a program. -/
theorem Reachable.records {source : String} {file : Option String} {m : Machine}
    (h : m.Reachable source file) (heof : m.table.infixRule .eof = none) {rounds : Nat}
    (hrounds : nestingLimit + m.window.cursor.tokens.length + 2 ≤ rounds) :
    let statement := (m.table.level (nestingLimit - m.nesting)).readStmt
    let found := attempts statement m.window.cursor
    (Procedure.readProgram (procedures rounds).readStmt rounds).Records m
      (Attempt.program found).statements (Attempt.diagnostics found)
      (endOfAttempts statement m.window.cursor) := by
  intro statement found
  have hagrees := Reading.stmt.agrees heof h.nesting_le
    (by omega : nestingLimit - m.nesting + m.window.cursor.tokens.length + 1 < rounds)
  exact Procedure.readProgram_records hagrees ⟨h.drawn, rfl, rfl, Nat.le_refl _⟩ (by omega)

/-- Whatever was done with a machine before and whatever rules were registered, if the end of the
input has none after an expression then reading anything comes to the result that the routine for
it gives, and keeps all but the window. So does a program, which records the diagnostics of what is
left out. -/
theorem Reachable.keeps {source : String} {file : Option String} {m : Machine}
    (h : m.Reachable source file) (heof : m.table.infixRule .eof = none) {rounds : Nat}
    (hrounds : nestingLimit + m.window.cursor.tokens.length + 2 ≤ rounds) :
    let reader := m.reader h.nesting_le
    (∀ {α : Type} (reading : Reading α),
        let (result, next) := reader.run (reading.routine reader.level reader.table)
        ∃ operations, reading.procedure rounds m = some (result, operations) ∧
          m.Keeps operations [] ∧ (m.after operations).window.cursor = next.cursor) ∧
      let (program, next) := reader.readProgram
      ∃ operations,
        Procedure.readProgram (procedures rounds).readStmt rounds m =
            some (.ok program.statements, operations) ∧
          m.Keeps operations (Attempt.diagnostics reader.attempts) ∧
          (m.after operations).window.cursor = next.cursor := by
  intro reader
  constructor
  · intro α reading
    obtain ⟨operations, window, hrun, hafter, -, hcursor⟩ := h.does heof hrounds reading
    refine ⟨operations, hrun, ⟨?_, ?_, ?_, ?_⟩, ?_⟩
    · rw [hafter]
    · rw [hafter]
    · rw [hafter, List.append_nil]
    · exact fun before _ => nesting_after_le h.nesting_le before
    · rw [hafter]
      exact hcursor
  · obtain ⟨operations, window, hrun, hafter, -, hcursor⟩ := h.records heof hrounds
    refine ⟨operations, hrun, ⟨?_, ?_, ?_, ?_⟩, ?_⟩
    · rw [hafter]
    · rw [hafter]
    · rw [hafter]
      rfl
    · exact fun before _ => nesting_after_le h.nesting_le before
    · rw [hafter]
      exact hcursor

/-- A call that breaks off in a block inside a call leaves the frames of all of them. -/
theorem Reachable.keeps_of_unfinished_block :
    let m := ((Machine.ofString "f(fn(x) \x7b -x" none).perform
      (.withInfixRule .openCurly .call .call)).perform .enter
    let (result, _) := ((m.table.level 99).expr .lowest).run m.window.cursor
    result.isOk = false ∧ ∃ operations,
      (Reading.expr .lowest).procedure 200 m = some (result, operations) ∧
        m.Keeps operations [] := by
  intro m
  have hreachable : m.Reachable "f(fn(x) \x7b -x" none := .perform .enter (.perform _ .start)
  have hrounds : nestingLimit + m.window.cursor.tokens.length + 2 ≤ 200 := by decide +kernel
  obtain ⟨operations, hrun, hkeeps, -⟩ :=
    (hreachable.keeps (by decide +kernel) hrounds).1 (.expr .lowest)
  exact ⟨by decide +kernel, operations, hrun, hkeeps⟩

end Machine

end LetScript
