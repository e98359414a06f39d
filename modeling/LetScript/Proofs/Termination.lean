import LetScript.Proofs.Reachability

/-!
# Reading returns for every table

Readers are used step by step: rules are registered, levels are entered and left, and routines are
run from wherever the reader stands. Whatever was done before, reading returns if the end of the
input has no rule after an expression. That alone would keep a loop going where no tokens are left;
a rule at the start of an expression may call itself there for ever, but then the frames run out.

A reader cannot run for ever, but the procedures of a machine can, and the machine in the place of a
reader does what the reader does. How long it takes is bounded by the frames that are free and the
tokens that are left, together: the calls inside one another use up a frame each, and each round of
a loop uses up a token.
-/

namespace LetScript

namespace Machine

theorem after_advances (m : Machine) (n : Nat) :
    m.after (List.replicate n .advance) = { m with window := Window.advance^[n] m.window } := by
  induction n generalizing m with
  | zero => rfl
  | succ n ih => rw [List.replicate_succ, after_cons, ih, Function.iterate_succ_apply, perform]

theorem after_records (m : Machine) (recorded : List Diagnostic) :
    m.after (recorded.map .record) = { m with diagnostics := m.diagnostics ++ recorded } := by
  induction recorded generalizing m with
  | nil => simp [after]
  | cons diagnostic rest ih => simp [ih, perform]

namespace Reachable

variable {source : String} {file : Option String} {m : Machine}

theorem after (h : m.Reachable source file) (operations : List Operation) :
    (m.after operations).Reachable source file := by
  induction operations generalizing m with
  | nil => exact h
  | cons operation rest ih => exact ih (h.perform operation)

/-- By advancing and recording a machine comes to any place that a cursor comes to. -/
theorem exists_moved (h : m.Reachable source file) {c : Cursor}
    (hreaches : m.window.cursor.Reaches c) (recorded : List Diagnostic) :
    ∃ window, window.cursor = c ∧
      ({ m with window, diagnostics := m.diagnostics ++ recorded } : Machine).Reachable source
        file := by
  obtain ⟨n, rfl⟩ := hreaches.exists_iterate
  obtain ⟨k, hwindow⟩ := h.exists_window_eq
  refine ⟨Window.advance^[n] m.window, ?_, ?_⟩
  · rw [hwindow, ← Function.iterate_add_apply, Window.cursor_iterate, Window.cursor_iterate,
      Function.iterate_add_apply]
  · have hmoved := (h.after (List.replicate n .advance)).after (recorded.map .record)
    rwa [after_records, after_advances] at hmoved

end Reachable

end Machine

namespace Reader

variable {source : String} {file : Option String} {reader : Reader}

/-- In the place of every reader there may be a machine. -/
theorem Reachable.exists_machine (h : Reachable source file reader) :
    ∃ (m : Machine) (hm : m.Reachable source file), m.reader hm.nesting_le = reader := by
  induction h with
  | start =>
    refine ⟨_, .start, ?_⟩
    simp only [Machine.reader, Machine.ofString, Window.cursor_ofString]
    rfl
  | withPrefixRule kind rule _ ih =>
    obtain ⟨m, hm, rfl⟩ := ih
    exact ⟨_, hm.perform (.withPrefixRule kind rule), rfl⟩
  | withInfixRule kind power rule _ ih =>
    obtain ⟨m, hm, rfl⟩ := ih
    exact ⟨_, hm.perform (.withInfixRule kind power rule), rfl⟩
  | enter _ ih =>
    obtain ⟨m, hm, rfl⟩ := ih
    refine ⟨_, hm.perform .enter, ?_⟩
    by_cases hfree : m.nesting < nestingLimit
    · simp [Machine.reader, Machine.perform, Reader.enter, hfree]
    · simp [Machine.reader, Machine.perform, Reader.enter, hfree]
  | leave _ ih =>
    obtain ⟨m, hm, rfl⟩ := ih
    exact ⟨_, hm.perform .leave, rfl⟩
  | run routine _ ih =>
    obtain ⟨m, hm, rfl⟩ := ih
    obtain ⟨window, hcursor, hmoved⟩ := hm.exists_moved (routine.reaches _) []
    refine ⟨_, hmoved, ?_⟩
    simp only [Machine.reader, Reader.run, hcursor, List.append_nil]
  | readProgram _ ih =>
    obtain ⟨m, hm, rfl⟩ := ih
    obtain ⟨window, hcursor, hmoved⟩ := hm.exists_moved (reaches_endOfAttempts _ _).1 _
    refine ⟨_, hmoved, ?_⟩
    simp only [Machine.reader, hcursor]
    rfl

/-- Whatever was done with a reader before, if the end of the input has no rule after an expression
then reading anything returns from where it stands, and so does reading a program, which ends at the
end of the input. Each token that is left gives at most one statement or one diagnostic. -/
theorem Reachable.returns_of_infixRule_eof (h : Reachable source file reader)
    (heof : reader.table.infixRule .eof = none) {rounds : Nat}
    (hrounds : nestingLimit + reader.cursor.tokens.length + 2 ≤ rounds) :
    (∃ (m : Machine) (hm : m.Reachable source file), m.reader hm.nesting_le = reader) ∧
      ∀ (m : Machine) (hm : m.Reachable source file), m.reader hm.nesting_le = reader →
        (∀ {α : Type} (reading : Reading α),
          let (result, next) := reader.run (reading.routine reader.level reader.table)
          ∃ operations, reading.procedure rounds m = some (result, operations) ∧
            (m.after operations).window.cursor = next.cursor) ∧
        let (program, next) := reader.readProgram
        ∃ operations recorded,
          Procedure.readProgram (procedures rounds).readStmt rounds m =
              some (.ok program.statements, operations) ∧
            (m.after operations).window.cursor = next.cursor ∧
            (m.after operations).window.current.kind = .eof ∧
            (m.after operations).diagnostics = reader.diagnostics ++ recorded ∧
            next.diagnostics = reader.diagnostics ++ recorded ∧
            program.statements.length + recorded.length ≤
              reader.cursor.tokens.countP (fun token => token.kind ≠ .eof) := by
  refine ⟨h.exists_machine, fun m hm hreader => ?_⟩
  subst hreader
  constructor
  · intro α reading
    obtain ⟨operations, window, hrun, hafter, -, hcursor⟩ := hm.does heof hrounds reading
    refine ⟨operations, hrun, ?_⟩
    rw [hafter]
    exact hcursor
  · obtain ⟨operations, window, hrun, hafter, hdrawn, hcursor⟩ := hm.records heof hrounds
    have hend := (reaches_endOfAttempts (m.reader hm.nesting_le).level.readStmt
      m.window.cursor).2
    have hcount : m.window.cursor.tokens.countP (fun token => token.kind ≠ .eof) =
        m.window.cursor.tokens.length :=
      List.countP_eq_length.mpr fun token hmem => by simpa using h.genuine token hmem
    refine ⟨operations, _, hrun, ?_, ?_, ?_, rfl, ?_⟩
    · rw [hafter]
      exact hcursor
    · rw [hafter]
      exact hdrawn.kind_current_iff.mpr (hcursor ▸ hend)
    · rw [hafter]
      rfl
    · calc (Attempt.program (m.reader hm.nesting_le).attempts).statements.length +
            (Attempt.diagnostics (m.reader hm.nesting_le).attempts).length
          _ = (m.reader hm.nesting_le).attempts.length :=
            Attempt.length_program_add_length_diagnostics _
          _ ≤ m.window.cursor.tokens.length := length_attempts_le _ _
          _ = _ := hcount.symm

/-- With a rule at the start of an expression that reads an operand, the end of the input calls
itself until no frame is free. -/
theorem Reachable.returns_of_prefixOp_eof :
    let reader := (Reader.ofString "!x; !" none).withPrefixRule .eof .prefixOp
    reader.readProgram.1.statements.length = 1 ∧
      ∃ (m : Machine) (hm : m.Reachable "!x; !" none) (operations : List Machine.Operation)
        (recorded : List Diagnostic), m.reader hm.nesting_le = reader ∧
        Procedure.readProgram (procedures 200).readStmt 200 m =
            some (.ok reader.readProgram.1.statements, operations) ∧
          (m.after operations).window.current.kind = .eof ∧
          (m.after operations).diagnostics = recorded ∧ recorded.length = 1 ∧
          reader.readProgram.1.statements.length + recorded.length ≤ 4 := by
  intro reader
  have hreachable : Reachable "!x; !" none reader := .withPrefixRule .eof .prefixOp .start
  have hcount : reader.cursor.tokens.countP (fun token => token.kind ≠ .eof) = 4 := by
    decide +kernel
  obtain ⟨⟨m, hm, hreader⟩, hreturns⟩ :=
    hreachable.returns_of_infixRule_eof rfl (by decide +kernel : _ ≤ 200)
  obtain ⟨-, operations, recorded, hprogram, -, hend, hrecorded, hsame, hle⟩ :=
    hreturns m hm hreader
  have hone : recorded.length = 1 := (congrArg List.length hsame).symm.trans (by decide +kernel)
  exact ⟨by decide +kernel, m, hm, operations, recorded, hreader, hprogram, hend, hrecorded, hone,
    hcount ▸ hle⟩

end Reader

end LetScript
