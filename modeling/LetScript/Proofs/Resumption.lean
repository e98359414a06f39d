import LetScript.Proofs.Reachability
import LetScript.Proofs.Segments
import LetScript.Proofs.Shifting

/-!
# Reading on from the middle of a source

Nothing but the bytes that are left goes from one attempt to the next: each is made with all
levels free and with no brace open before its first token, however those before it ended. So the
attempts from any of them on are those made at what is left of the source, which is cut between
two characters, only that everything stands further on.
-/

namespace LetScript

namespace Lexer

variable {source : String} {file : Option String} {lexer : Lexer} {c : Cursor}

/-- A source that is left after some separators starts with its first token. -/
theorem offset_skipSeparators_of_moved {count : Nat}
    (h : lexer.skipSeparators = (Lexer.ofString source file).moved count) :
    (Lexer.ofString source file).skipSeparators.offset = 0 := by
  have htwice := skipSeparators_skipSeparators lexer
  rw [h, skipSeparators, skip_moved] at htwice
  have hoffset := congrArg Lexer.offset htwice
  exact Nat.add_right_cancel (m := count) hoffset

/-- The same cursor, further on, is at the start of what is left of the source. -/
theorem Serves.exists_eq_relocate (h : lexer.Serves source file c) (houtside : c.Outside)
    (hleft : c.tokens ≠ []) :
    ∃ front rest, source = front ++ rest ∧
      (Cursor.ofString rest file).position = .atOffset 0 (file.getD defaultFile) ∧
      c = (Cursor.ofString rest file).relocate (.shift front.utf8ByteSize) := by
  obtain ⟨front, rest, hsource, hlexer⟩ := (h.stands hleft).skipSeparators
  have hshift (offset : Nat) (_ : offset ≤ (Lexer.ofString rest file).toEnd.offset) :=
    Position.shift_atOffset front.utf8ByteSize offset (Lexer.ofString rest file).file
  have htokens : c.tokens =
      (Lexer.ofString rest file).content.map (Token.relocate (.shift front.utf8ByteSize)) := by
    rw [h.tokens_eq, ← content_skipSeparators, hlexer]
    exact content_moved hshift
  have hfinish : c.finish = (Lexer.ofString rest file).finish.shift front.utf8ByteSize := by
    have hpasses := passes_skipSeparators lexer
    rw [h.finish_eq, finish, ← hpasses.toEnd_eq, ← hpasses.file_eq, hlexer]
    exact finish_moved hshift
  refine ⟨front, rest, hsource, ?_, ?_⟩
  · cases hnext : (Lexer.ofString rest file).next? with
    | none =>
      rw [content_of_next?_eq_none hnext] at htokens
      exact absurd htokens hleft
    | some drawn =>
      obtain ⟨hposition, -⟩ := start_of_next? hnext
      rw [offset_skipSeparators_of_moved hlexer] at hposition
      have hcurrent : (Cursor.ofString rest file).current = drawn.1 := by
        rw [Cursor.current]
        simp [Cursor.ofString, Cursor.ofLexer, Cursor.ofTokens, content_of_next? hnext]
      rw [Cursor.position, hcurrent, hposition]
      rfl
  · have hstart : ((Cursor.ofString rest file).relocate (.shift front.utf8ByteSize)).Outside := by
      rw [Cursor.ofString, Cursor.ofLexer, Cursor.ofTokens_relocate]
      rfl
    rw [houtside.eq_advance, hstart.eq_advance, htokens, hfinish]
    rfl

end Lexer

/-- Every attempt is made at a place that has a lexer before it. -/
theorem Lexer.Serves.exists_of_attempts {source : String} {file : Option String} {lexer : Lexer}
    {c : Cursor} (h : lexer.Serves source file c) (houtside : c.Outside)
    {first second : List Attempt} {attempt : Attempt}
    (hattempts : attempts Table.standard.statement c = first ++ attempt :: second) :
    ∃ before : Lexer, before.Serves source file attempt.start := by
  induction first generalizing c lexer with
  | nil =>
    obtain ⟨-, rfl, -⟩ := of_attempts_eq_cons hattempts
    exact ⟨lexer, h⟩
  | cons other rest ih =>
    obtain ⟨hleft, rfl, hrest⟩ := of_attempts_eq_cons hattempts
    obtain ⟨stop, -, hserves⟩ := h.exists_next houtside hleft
    refine ih hserves (Attempt.outside_next houtside fun hnil => ?_) hrest
    rw [attempts_of_tokens_eq_nil hnil] at hrest
    simp at hrest

/-- The machine that reads a source comes to each of the attempts, and reads the rest of the program
from there on. No frame is entered then, and no block is being read. -/
theorem Machine.exists_at_attempt {source : String} {file : Option String}
    {first second : List Attempt} {attempt : Attempt}
    (hattempts : sourceAttempts source file = first ++ attempt :: second) {rounds : Nat}
    (hrounds : nestingLimit + (Lexer.ofString source file).content.length + 2 ≤ rounds) :
    ∃ done rest left,
      Procedure.readProgram (procedures rounds).readStmt rounds (.ofString source file) =
          some (.ok (parse source file).1.statements, done ++ rest) ∧
        let m := (Machine.ofString source file).after done
        Procedure.readProgram (procedures rounds).readStmt left m =
            some (.ok (Attempt.program (attempt :: second)).statements, rest) ∧
          m.window.cursor = attempt.start ∧ m.nesting = 0 ∧ m.blocks = [] ∧
          m.table = .standard ∧ m.diagnostics = Attempt.diagnostics first := by
  let start := Machine.ofString source file
  have hcursor : start.window.cursor = .ofString source file := Window.cursor_ofString source file
  have hlength : start.window.cursor.tokens.length =
      (Lexer.ofString source file).content.length := by
    rw [hcursor]
    rfl
  have hin : start.In ⟨.standard, 0, start.window.cursor.tokens.length⟩ :=
    ⟨Window.drawn_ofString source file, rfl, rfl, Nat.le_refl _⟩
  have heof : Table.standard.infixRule .eof = none := rfl
  have hagrees := Reading.stmt.agrees heof (Nat.zero_le nestingLimit)
    (by omega : nestingLimit - 0 + start.window.cursor.tokens.length + 1 < rounds)
  have hsplit : attempts Table.standard.statement start.window.cursor =
      first ++ attempt :: second := hcursor ▸ hattempts
  have hlt : start.window.cursor.tokens.length + 1 < rounds := by omega
  obtain ⟨done, rest, window, left, hrun, hafter, -, hfound, hleft⟩ :=
    Procedure.readProgram_at_attempt hagrees hin hlt hsplit
  have hstart : window.cursor = attempt.start := by
    rw [(of_attempts_eq_cons hfound).2.1]
    rfl
  rw [← hattempts] at hrun
  refine ⟨done, rest, left, hrun, hleft, ?_⟩
  rw [hafter]
  exact ⟨hstart, rfl, rfl, rfl, rfl⟩

/-- From every attempt on, a source is read as what is left of it from its next token on, further
on: the attempts are the same, and so are the statements and the diagnostics still to come. The
attempt is made with all levels free, and no brace is open but that of its first token. The machine
that reads the source comes to each attempt with no frame entered. -/
theorem parse_from_attempt {source : String} {file : Option String}
    {first second : List Attempt} {attempt : Attempt}
    (hattempts : sourceAttempts source file = first ++ attempt :: second) :
    ∃ front rest, source = front ++ rest ∧
      (Cursor.ofString rest file).position = .atOffset 0 (file.getD Lexer.defaultFile) ∧
      attempt.start.position = .atOffset front.utf8ByteSize (file.getD Lexer.defaultFile) ∧
      attempt :: second =
        (sourceAttempts rest file).map (Attempt.relocate (.shift front.utf8ByteSize)) ∧
      (Attempt.program (attempt :: second)).statements =
        (parse rest file).1.statements.map (Stmt.relocate (.shift front.utf8ByteSize)) ∧
      Attempt.diagnostics (attempt :: second) =
        (parse rest file).2.map (Diagnostic.relocate (.shift front.utf8ByteSize)) ∧
      attempt = .ofCursor (Table.standard.level nestingLimit).readStmt attempt.start ∧
      attempt.start.openBraces = (if attempt.start.current.kind = .openCurly then 1 else 0) ∧
      ∀ rounds, nestingLimit + (Lexer.ofString source file).content.length + 2 ≤ rounds →
        ∃ done more left,
          Procedure.readProgram (procedures rounds).readStmt rounds (.ofString source file) =
              some (.ok (parse source file).1.statements, done ++ more) ∧
            let m := (Machine.ofString source file).after done
            Procedure.readProgram (procedures rounds).readStmt left m =
                some (.ok (Attempt.program (attempt :: second)).statements, more) ∧
              m.window.cursor = attempt.start ∧ m.nesting = 0 := by
  have hmem : attempt ∈ sourceAttempts source file := by simp [hattempts]
  obtain ⟨houtside, hattempt⟩ := outside_of_mem_sourceAttempts hmem
  obtain ⟨-, hfrom⟩ := of_attempts_eq_append hattempts
  have hleft : attempt.start.tokens ≠ [] := (of_attempts_eq_cons hfrom).1
  obtain ⟨before, hserves⟩ := (Lexer.serves_ofString source file).exists_of_attempts
    (Cursor.outside_ofString source file) hattempts
  obtain ⟨front, rest, hsource, hposition, hstart⟩ := hserves.exists_eq_relocate houtside hleft
  have hrest : attempt :: second =
      (sourceAttempts rest file).map (Attempt.relocate (.shift front.utf8ByteSize)) := by
    rw [← hfrom, hstart, attempts_relocate]
    rfl
  refine ⟨front, rest, hsource, hposition, ?_, hrest, ?_, ?_, hattempt, ?_, ?_⟩
  · rw [hstart, Cursor.position, Cursor.current_relocate, Token.position_relocate]
    refine (congrArg _ hposition).trans ((Position.shift_atOffset _ 0 _).trans ?_)
    rw [Nat.zero_add]
  · rw [hrest, Attempt.statements_program_relocate]
    rfl
  · rw [hrest, Attempt.diagnostics_relocate]
    rfl
  · rw [houtside, Kind.openBraces_eq]
    split
    · rfl
    · split <;> rfl
  · intro rounds hrounds
    obtain ⟨done, more, left, hrun, hmore, hcursor, hnesting, -⟩ :=
      Machine.exists_at_attempt hattempts hrounds
    exact ⟨done, more, left, hrun, hmore, hcursor, hnesting⟩

/-- After a statement that breaks inside two blocks, the next one is read as a source of its own,
and the machine comes to it with all frames left. -/
theorem parse_from_attempt_after_blocks :
    let source := "fn() { if (x) { é } }; y;"
    ∃ first attempt second,
      sourceAttempts source none = first ++ attempt :: second ∧
      Attempt.diagnostics first ≠ [] ∧
      (∃ front rest, source = front ++ rest ∧
        attempt.start.position = .atOffset front.utf8ByteSize Lexer.defaultFile ∧
        (Attempt.program (attempt :: second)).statements =
          (parse rest none).1.statements.map (Stmt.relocate (.shift front.utf8ByteSize)) ∧
        attempt.start.openBraces = 0) ∧
      ∃ done more,
        Procedure.readProgram (procedures 200).readStmt 200 (.ofString source none) =
            some (.ok (parse source none).1.statements, done ++ more) ∧
          ((Machine.ofString source none).after done).window.cursor = attempt.start ∧
          ((Machine.ofString source none).after done).nesting = 0 := by
  intro source
  let f := Attempt.ofCursor Table.standard.statement (.ofString source none)
  let y := Attempt.ofCursor Table.standard.statement f.next
  have hattempts : sourceAttempts source none = [f] ++ y :: [] := by
    rw [sourceAttempts, attempts_of_tokens_ne_nil (by decide +kernel),
      attempts_of_tokens_ne_nil (by decide +kernel), attempts_of_tokens_eq_nil (by decide +kernel)]
    rfl
  obtain ⟨front, rest, hsource, -, hposition, -, hstatements, -, -, hbraces, hmachine⟩ :=
    parse_from_attempt hattempts
  obtain ⟨done, more, -, hrun, -, hcursor, hnesting⟩ := hmachine 200 (by decide +kernel)
  exact ⟨[f], y, [], hattempts, by decide +kernel,
    ⟨front, rest, hsource, hposition, hstatements, hbraces.trans (by decide +kernel)⟩,
    done, more, hrun, hcursor, hnesting⟩

end LetScript
