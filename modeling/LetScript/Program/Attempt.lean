import LetScript.Grammar.Statement

/-!
# Reading a whole source, statement by statement

A source is read as a list of attempts, one for each place where a statement starts. An attempt
that succeeds gives a statement. One that fails gives a diagnostic, and the rest of the broken
statement is skipped: up to a semicolon outside all braces or, when the failure lay inside
braces, up to the brace that closes them and a semicolon after it. The next attempt starts at
the token after that, so one attempt never reads a token of another.

The program, the diagnostics and the record of what happened are all read off the attempts.
-/

namespace LetScript

namespace Cursor

/-- Moves to the last token of a broken statement; `inside` tells whether it broke inside
braces. -/
def skipBroken (inside : Bool) (cursor : Cursor) : Cursor :=
  match htokens : cursor.tokens with
  | [] => cursor
  | token :: _ =>
    if cursor.openBraces = 0 ∧ token.kind = .semicolon then
      cursor
    else if cursor.openBraces = 0 ∧ inside ∧ token.kind = .closeCurly then
      if cursor.peek.kind = .semicolon then cursor.advance else cursor
    else
      have := length_tokens_advance_lt (List.ne_nil_of_mem (htokens ▸ List.mem_cons_self))
      skipBroken inside cursor.advance
termination_by cursor.tokens.length
decreasing_by assumption

theorem reaches_skipBroken (inside : Bool) (cursor : Cursor) :
    cursor.Reaches (cursor.skipBroken inside) := by
  fun_induction skipBroken inside cursor with
  | case1 => exact .refl
  | case2 => exact .refl
  | case3 => exact .advance .refl
  | case4 => exact .refl
  | case5 _ _ _ _ _ _ _ ih => exact .ofAdvance ih

/-- Moves from where a statement broke to the last token that is skipped with it. -/
def recover (cursor : Cursor) : Cursor := cursor.skipBroken (0 < cursor.openBraces)

end Cursor

/-- One attempt to read a statement. -/
structure Attempt where
  /-- Stands on the first token. -/
  start : Cursor
  result : Except Diagnostic Stmt
  /-- Where the reading stopped. -/
  stop : Cursor

namespace Attempt

/-- The attempt to read a statement from a cursor on. -/
def ofCursor (statement : Routine Stmt) (cursor : Cursor) : Attempt :=
  ⟨cursor, (statement.run cursor).1, (statement.run cursor).2⟩

/-- The last token that belongs to the attempt, skipped ones included. -/
def last (attempt : Attempt) : Cursor :=
  match attempt.result with
  | .ok _ => attempt.stop
  | .error _ => attempt.stop.recover

/-- Where the next attempt starts. -/
def next (attempt : Attempt) : Cursor := attempt.last.advance

/-- The statement of an attempt that succeeded. -/
def statement? (attempt : Attempt) : Option Stmt :=
  match attempt.result with
  | .ok statement => some statement
  | .error _ => none

/-- The diagnostic of an attempt that failed. -/
def diagnostic? (attempt : Attempt) : Option Diagnostic :=
  match attempt.result with
  | .ok _ => none
  | .error diagnostic => some diagnostic

theorem reaches_stop (statement : Routine Stmt) (cursor : Cursor) :
    cursor.Reaches (ofCursor statement cursor).stop :=
  statement.reaches cursor

theorem reaches_last (statement : Routine Stmt) (cursor : Cursor) :
    cursor.Reaches (ofCursor statement cursor).last := by
  have hstop := reaches_stop statement cursor
  unfold last
  split
  · exact hstop
  · exact hstop.trans (Cursor.reaches_skipBroken _ _)

/-- An attempt takes at least one token. -/
theorem length_tokens_next_lt (statement : Routine Stmt) {cursor : Cursor}
    (h : cursor.tokens ≠ []) :
    (ofCursor statement cursor).next.tokens.length < cursor.tokens.length := by
  have hlast := (reaches_last statement cursor).length_tokens_le
  have hpos := List.length_pos_iff.mpr h
  simp only [next, Cursor.tokens_advance, List.length_tail]
  omega

end Attempt

/-- The attempts to read statements from a cursor on, up to the end of input. -/
def attempts (statement : Routine Stmt) (cursor : Cursor) : List Attempt :=
  if h : cursor.tokens = [] then
    []
  else
    have := Attempt.length_tokens_next_lt statement h
    .ofCursor statement cursor :: attempts statement (Attempt.ofCursor statement cursor).next
termination_by cursor.tokens.length

theorem attempts_of_tokens_eq_nil {cursor : Cursor} (h : cursor.tokens = [])
    (statement : Routine Stmt) : attempts statement cursor = [] := by
  rw [attempts, dif_pos h]

theorem attempts_of_tokens_ne_nil {cursor : Cursor} (h : cursor.tokens ≠ [])
    (statement : Routine Stmt) :
    attempts statement cursor =
      .ofCursor statement cursor ::
        attempts statement (Attempt.ofCursor statement cursor).next := by
  rw [attempts, dif_neg h]

namespace Attempt

/-- The statements that were read, in order. -/
def program (attempts : List Attempt) : Program := ⟨attempts.filterMap statement?⟩

/-- The diagnostics of what could not be read, in order. -/
def diagnostics (attempts : List Attempt) : List Diagnostic := attempts.filterMap diagnostic?

/-- Each attempt gives a statement or a diagnostic, and never both. -/
theorem length_program_add_length_diagnostics (attempts : List Attempt) :
    (program attempts).statements.length + (diagnostics attempts).length = attempts.length := by
  induction attempts with
  | nil => rfl
  | cons attempt rest ih =>
    simp only [program, diagnostics, List.filterMap_cons, List.length_cons] at ih ⊢
    rcases attempt with ⟨_, _ | _, _⟩ <;>
      simp only [statement?, diagnostic?, List.length_cons] <;> omega

end Attempt

/-- The attempts to read `source` by the rules of the language. -/
def sourceAttempts (source : String) (file : Option String) : List Attempt :=
  attempts Table.standard.statement (.ofString source file)

/-- The program in `source`, and the diagnostics of the statements left out of it. -/
def parse (source : String) (file : Option String) : Program × List Diagnostic :=
  let found := sourceAttempts source file
  (Attempt.program found, Attempt.diagnostics found)

end LetScript
