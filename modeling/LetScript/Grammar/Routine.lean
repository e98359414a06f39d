import LetScript.Diagnostic.Basic
import LetScript.Grammar.Cursor

/-!
# Routines that read from a cursor

A routine reads some tokens from a cursor on and gives a value or a diagnostic. In both cases it
leaves the cursor where the reading stopped, so that whoever called it can go on from there.

Every routine carries the proof that it only moves its cursor forward. Routines therefore never
grow the list of tokens left, and a loop that advances once in each round ends.
-/

namespace LetScript

/-- Reading a value from a cursor on. -/
structure Routine (α : Type) where
  /-- The value or the diagnostic, and where the reading stopped. -/
  run : Cursor → Except Diagnostic α × Cursor
  reaches : ∀ cursor : Cursor, cursor.Reaches (run cursor).2

namespace Routine

variable {α β γ : Type}

theorem length_tokens_run_le (routine : Routine α) (cursor : Cursor) :
    (routine.run cursor).2.tokens.length ≤ cursor.tokens.length :=
  (routine.reaches cursor).length_tokens_le

/-- Reads nothing. -/
protected def pure (value : α) : Routine α :=
  ⟨fun cursor => (.ok value, cursor), fun _ => .refl⟩

/-- Reads on with what the first routine read, unless that failed. -/
protected def bind (first : Routine α) (next : α → Routine β) : Routine β where
  run cursor :=
    match first.run cursor with
    | (.ok value, after) => (next value).run after
    | (.error diagnostic, after) => (.error diagnostic, after)
  reaches cursor := by
    have hfirst := first.reaches cursor
    split <;> rename_i h <;> rw [h] at hfirst
    · exact hfirst.trans ((next _).reaches _)
    · exact hfirst

instance : Monad Routine where
  pure := Routine.pure
  bind := Routine.bind

@[simp] theorem run_pure (value : α) (cursor : Cursor) :
    (pure value : Routine α).run cursor = (.ok value, cursor) := rfl

theorem run_bind (first : Routine α) (next : α → Routine β) (cursor : Cursor) :
    (first >>= next).run cursor =
      match first.run cursor with
      | (.ok value, after) => (next value).run after
      | (.error diagnostic, after) => (.error diagnostic, after) := rfl

theorem run_bind_of_ok {first : Routine α} {cursor after : Cursor} {value : α}
    (h : first.run cursor = (.ok value, after)) (next : α → Routine β) :
    (first >>= next).run cursor = (next value).run after := by
  rw [run_bind, h]

theorem run_bind_of_error {first : Routine α} {cursor after : Cursor} {diagnostic : Diagnostic}
    (h : first.run cursor = (.error diagnostic, after)) (next : α → Routine β) :
    (first >>= next).run cursor = (.error diagnostic, after) := by
  rw [run_bind, h]

/-- Routines that read alike from every cursor are the same. -/
@[ext] protected theorem ext {a b : Routine α} (h : ∀ c, a.run c = b.run c) : a = b := by
  cases a
  cases b
  congr
  funext c
  exact h c

theorem bind_pure_self (routine : Routine α) : routine >>= pure = routine := by
  apply Routine.ext
  intro c
  rw [run_bind]
  rcases routine.run c with ⟨_ | _, _⟩ <;> rfl

/-- Reading three things in turn does not depend on how they are grouped. -/
protected theorem bind_assoc (first : Routine α) (second : α → Routine β)
    (third : β → Routine γ) :
    first >>= second >>= third = first >>= fun value => second value >>= third := by
  apply Routine.ext
  intro c
  simp only [run_bind]
  rcases first.run c with ⟨_ | _, _⟩ <;> rfl

instance : LawfulMonad Routine :=
  .mk' _ bind_pure_self (fun _ _ => rfl) Routine.bind_assoc

/-- Looks at the cursor. -/
def here : Routine Cursor := ⟨fun cursor => (.ok cursor, cursor), fun _ => .refl⟩

/-- The current token. -/
def current : Routine Token := ⟨fun cursor => (.ok cursor.current, cursor), fun _ => .refl⟩

/-- The kind of the next token. -/
def peekKind : Routine Kind := ⟨fun cursor => (.ok cursor.peek.kind, cursor), fun _ => .refl⟩

/-- Moves on to the next token. -/
def advance : Routine Unit := ⟨fun cursor => (.ok (), cursor.advance), fun _ => .advance .refl⟩

/-- Fails at the current token. -/
def fail (cause : Cause) : Routine α :=
  ⟨fun cursor => (.error ⟨cause, cursor.position⟩, cursor), fun _ => .refl⟩

@[simp] theorem run_current (c : Cursor) : current.run c = (.ok c.current, c) := rfl

@[simp] theorem run_peekKind (c : Cursor) : peekKind.run c = (.ok c.peek.kind, c) := rfl

@[simp] theorem run_advance (c : Cursor) : advance.run c = (.ok (), c.advance) := rfl

@[simp] theorem run_fail (cause : Cause) (c : Cursor) :
    (fail cause : Routine α).run c = (.error ⟨cause, c.position⟩, c) := rfl

/-- Moves on to the next token if it is of the given kind, and fails at it if not. -/
def expectPeek (kind : Kind) : Routine Unit where
  run cursor :=
    if cursor.peek.kind = kind then
      (.ok (), cursor.advance)
    else
      (.error ⟨.unexpectedToken kind cursor.peek.kind, cursor.peek.position⟩, cursor)
  reaches cursor := by
    split
    · exact .advance .refl
    · exact .refl

theorem run_expectPeek_of_eq {kind : Kind} {c : Cursor} (h : c.peek.kind = kind) :
    (expectPeek kind).run c = (.ok (), c.advance) :=
  if_pos h

theorem run_expectPeek_of_ne {kind : Kind} {c : Cursor} (h : c.peek.kind ≠ kind) :
    (expectPeek kind).run c =
      (.error ⟨.unexpectedToken kind c.peek.kind, c.peek.position⟩, c) :=
  if_neg h

/-- Reads the semicolon after a statement, which may be left out where the input or the
enclosing block ends. -/
def expectTerminator : Routine Unit := do
  if (← here).peekEndsStatement then
    pure ()
  else
    expectPeek .semicolon

/-- One run of `whileNext`. -/
def whileNext.run (test : Cursor → Option γ) (body : γ → α → Routine α) (value : α)
    (cursor : Cursor) : Except Diagnostic α × Cursor :=
  match test cursor with
  | none => (.ok value, cursor)
  | some found =>
    if hleft : cursor.tokens = [] then
      (.ok value, cursor)
    else
      match h : (body found value).run cursor.advance with
      | (.ok next, after) =>
        have : after.tokens.length < cursor.tokens.length := by
          have hle := (body found value).length_tokens_run_le cursor.advance
          rw [h] at hle
          exact Nat.lt_of_le_of_lt hle (Cursor.length_tokens_advance_lt hleft)
        whileNext.run test body next after
      | (.error diagnostic, after) => (.error diagnostic, after)
termination_by cursor.tokens.length

theorem whileNext.reaches_run (test : Cursor → Option γ) (body : γ → α → Routine α) (value : α)
    (cursor : Cursor) : cursor.Reaches (whileNext.run test body value cursor).2 := by
  fun_induction whileNext.run test body value cursor with
  | case1 => exact .refl
  | case2 => exact .refl
  | case3 value cursor found _ _ _ _ h _ ih =>
    have hbody := (body found value).reaches cursor.advance
    rw [h] at hbody
    exact (Cursor.Reaches.ofAdvance hbody).trans ih
  | case4 value cursor found _ _ _ _ h =>
    have hbody := (body found value).reaches cursor.advance
    rw [h] at hbody
    exact Cursor.Reaches.ofAdvance hbody

/-- As long as the test finds something while tokens are left, advances and puts `value` through
the body. -/
def whileNext (test : Cursor → Option γ) (body : γ → α → Routine α) (value : α) : Routine α :=
  ⟨whileNext.run test body value, whileNext.reaches_run test body value⟩

theorem run_whileNext_of_eq_none {test : Cursor → Option γ} {c : Cursor} (h : test c = none)
    (body : γ → α → Routine α) (value : α) :
    (whileNext test body value).run c = (.ok value, c) := by
  simp only [whileNext]
  unfold whileNext.run
  rw [h]

/-- One round of the loop. -/
theorem run_whileNext_of_eq_some {test : Cursor → Option γ} {c : Cursor} {found : γ}
    (h : test c = some found) (hleft : c.tokens ≠ []) (body : γ → α → Routine α) (value : α) :
    (whileNext test body value).run c =
      (body found value >>= whileNext test body).run c.advance := by
  simp only [whileNext, run_bind]
  rw [whileNext.run]
  simp only [h, hleft, dite_false]
  split <;> rename_i heq <;> simp [heq]

end Routine

end LetScript
