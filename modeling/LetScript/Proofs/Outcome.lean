import LetScript.Grammar.Statement

/-!
# How a routine comes to succeed or fail

A routine made of two parts succeeds when both do, and fails when the first fails or the second
does after it. These inversions take a run of a routine apart into the runs of its parts; the
runs that only look at the cursor or move it are computed. For a loop they give the usual rule: a
property of the value and the cursor that each round keeps holds at the end, and a loop that
fails does so in a round before which the property holds. The statements up to a closing brace are
read by a recursion that goes on after each of them, so what is told of them is built from the last
one back to the first.
-/

namespace LetScript.Routine

variable {α β γ : Type}

@[simp] theorem run_current_bind (next : Token → Routine β) (c : Cursor) :
    (current >>= next).run c = (next c.current).run c := rfl

@[simp] theorem run_peekKind_bind (next : Kind → Routine β) (c : Cursor) :
    (peekKind >>= next).run c = (next c.peek.kind).run c := rfl

@[simp] theorem run_here_bind (next : Cursor → Routine β) (c : Cursor) :
    (here >>= next).run c = (next c).run c := rfl

@[simp] theorem run_advance_bind (next : Unit → Routine β) (c : Cursor) :
    (advance >>= next).run c = (next ()).run c.advance := rfl

/-- Both parts succeed. -/
theorem run_bind_eq_ok_iff {first : Routine α} {next : α → Routine β} {c stop : Cursor}
    {result : β} :
    (first >>= next).run c = (.ok result, stop) ↔
      ∃ value between, first.run c = (.ok value, between) ∧
        (next value).run between = (.ok result, stop) := by
  rw [run_bind]
  constructor
  · intro h
    rcases hfirst : first.run c with ⟨diagnostic | value, between⟩
    · rw [hfirst] at h
      cases h
    · rw [hfirst] at h
      exact ⟨value, between, rfl, h⟩
  · rintro ⟨value, between, hfirst, hnext⟩
    rw [hfirst]
    exact hnext

/-- The first part fails, or the second one after it. -/
theorem run_bind_eq_error_iff {first : Routine α} {next : α → Routine β} {c stop : Cursor}
    {diagnostic : Diagnostic} :
    (first >>= next).run c = (.error diagnostic, stop) ↔
      first.run c = (.error diagnostic, stop) ∨
        ∃ value between, first.run c = (.ok value, between) ∧
          (next value).run between = (.error diagnostic, stop) := by
  rw [run_bind]
  constructor
  · intro h
    rcases hfirst : first.run c with ⟨failure | value, between⟩
    · rw [hfirst] at h
      obtain ⟨hfailure, rfl⟩ := Prod.mk.inj h
      obtain rfl := Except.error.inj hfailure
      exact .inl rfl
    · rw [hfirst] at h
      exact .inr ⟨value, between, rfl, h⟩
  · rintro (hfirst | ⟨value, between, hfirst, hnext⟩)
    · rw [hfirst]
    · rw [hfirst]
      exact hnext

theorem run_expectPeek_eq_ok_iff {kind : Kind} {c stop : Cursor} {u : Unit} :
    (expectPeek kind).run c = (.ok u, stop) ↔ c.peek.kind = kind ∧ stop = c.advance := by
  by_cases hkind : c.peek.kind = kind
  · rw [run_expectPeek_of_eq hkind]
    simp [hkind, eq_comm]
  · rw [run_expectPeek_of_ne hkind]
    simp [hkind]

theorem run_expectPeek_eq_error_iff {kind : Kind} {c stop : Cursor} {diagnostic : Diagnostic} :
    (expectPeek kind).run c = (.error diagnostic, stop) ↔
      c.peek.kind ≠ kind ∧
        diagnostic = ⟨.unexpectedToken kind c.peek.kind, c.peek.position⟩ ∧ stop = c := by
  by_cases hkind : c.peek.kind = kind
  · rw [run_expectPeek_of_eq hkind]
    simp [hkind]
  · rw [run_expectPeek_of_ne hkind]
    simp [hkind, eq_comm]

/-- Reading goes on after a token of the kind that is expected. -/
theorem run_expectPeek_bind_of_eq {kind : Kind} {c : Cursor} (h : c.peek.kind = kind)
    (next : Unit → Routine β) : (expectPeek kind >>= next).run c = (next ()).run c.advance :=
  run_bind_of_ok (run_expectPeek_of_eq h) next

/-- The next token is of the given kind, and the rest succeeds after it. -/
theorem run_expectPeek_bind_eq_ok_iff {kind : Kind} {next : Unit → Routine β} {c stop : Cursor}
    {result : β} :
    (expectPeek kind >>= next).run c = (.ok result, stop) ↔
      c.peek.kind = kind ∧ (next ()).run c.advance = (.ok result, stop) := by
  simp only [run_bind_eq_ok_iff, run_expectPeek_eq_ok_iff]
  constructor
  · rintro ⟨_, _, ⟨hkind, rfl⟩, hnext⟩
    exact ⟨hkind, hnext⟩
  · rintro ⟨hkind, hnext⟩
    exact ⟨(), c.advance, ⟨hkind, rfl⟩, hnext⟩

/-- The next token is of another kind, or the rest fails after it. -/
theorem run_expectPeek_bind_eq_error_iff {kind : Kind} {next : Unit → Routine β}
    {c stop : Cursor} {diagnostic : Diagnostic} :
    (expectPeek kind >>= next).run c = (.error diagnostic, stop) ↔
      (expectPeek kind).run c = (.error diagnostic, stop) ∨
        c.peek.kind = kind ∧ (next ()).run c.advance = (.error diagnostic, stop) := by
  simp only [run_bind_eq_error_iff, run_expectPeek_eq_ok_iff]
  constructor
  · rintro (hfirst | ⟨_, _, ⟨hkind, rfl⟩, hnext⟩)
    · exact .inl hfirst
    · exact .inr ⟨hkind, hnext⟩
  · rintro (hfirst | ⟨hkind, hnext⟩)
    · exact .inl hfirst
    · exact .inr ⟨(), c.advance, ⟨hkind, rfl⟩, hnext⟩

theorem run_expectTerminator (c : Cursor) :
    expectTerminator.run c =
      if c.peekEndsStatement then (.ok (), c) else (expectPeek .semicolon).run c := by
  simp only [expectTerminator, run_here_bind]
  split <;> rfl

/-- A loop is left where its test finds nothing, and where no tokens are left. -/
theorem run_whileNext_of_leaves {test : Cursor → Option γ} {c : Cursor}
    (h : test c = none ∨ c.tokens = []) (body : γ → α → Routine α) (value : α) :
    (whileNext test body value).run c = (.ok value, c) := by
  rcases h with hnone | hnil
  · exact run_whileNext_of_eq_none hnone body value
  · simp only [whileNext]
    unfold whileNext.run
    split
    · rfl
    · rw [dif_pos hnil]

/-- What is shown of a loop that is left at once, and of one that makes a round if it holds after
this round, holds of every loop. -/
theorem whileNext_induct (test : Cursor → Option γ) (body : γ → α → Routine α)
    {motive : α → Cursor → Prop}
    (leaves : ∀ value c, test c = none ∨ c.tokens = [] → motive value c)
    (goesOn : ∀ value c found, test c = some found → c.tokens ≠ [] →
      (∀ next after, (body found value).run c.advance = (.ok next, after) → motive next after) →
        motive value c)
    (value : α) (c : Cursor) : motive value c := by
  fun_induction whileNext.run test body value c with
  | case1 value c hnone => exact leaves value c (.inl hnone)
  | case2 value c found hfound hnil => exact leaves value c (.inr hnil)
  | case3 value c found hfound hleft next after hround _ ih =>
    refine goesOn value c found hfound hleft fun other last hother => ?_
    cases hround.symm.trans hother
    exact ih
  | case4 value c found hfound hleft diagnostic after hround =>
    refine goesOn value c found hfound hleft fun other last hother => ?_
    cases hround.symm.trans hother

/-- What each round of a loop keeps holds when the loop ends, and then the test finds nothing. -/
theorem run_whileNext_ok {test : Cursor → Option γ} {body : γ → α → Routine α}
    {value result : α} {c stop : Cursor} (keeps : α → Cursor → Prop) (hstart : keeps value c)
    (hround : ∀ {found before after start last}, keeps before start → test start = some found →
      start.tokens ≠ [] → (body found before).run start.advance = (.ok after, last) →
        keeps after last)
    (h : (whileNext test body value).run c = (.ok result, stop)) :
    keeps result stop ∧ (test stop = none ∨ stop.tokens = []) := by
  simp only [whileNext] at h
  fun_induction whileNext.run test body value c with
  | case1 value c htest =>
    obtain ⟨hresult, rfl⟩ := Prod.mk.inj h
    obtain rfl := Except.ok.inj hresult
    exact ⟨hstart, .inl htest⟩
  | case2 value c found htest hleft =>
    obtain ⟨hresult, rfl⟩ := Prod.mk.inj h
    obtain rfl := Except.ok.inj hresult
    exact ⟨hstart, .inr hleft⟩
  | case3 value c found htest hleft next after hbody _ ih =>
    exact ih (hround hstart htest hleft hbody) h
  | case4 => cases h

/-- A loop fails in a round before which what the earlier ones kept holds. -/
theorem run_whileNext_error {test : Cursor → Option γ} {body : γ → α → Routine α} {value : α}
    {c stop : Cursor} {diagnostic : Diagnostic} (keeps : α → Cursor → Prop)
    (hstart : keeps value c)
    (hround : ∀ {found before after start last}, keeps before start → test start = some found →
      start.tokens ≠ [] → (body found before).run start.advance = (.ok after, last) →
        keeps after last)
    (h : (whileNext test body value).run c = (.error diagnostic, stop)) :
    ∃ before start found, keeps before start ∧ test start = some found ∧ start.tokens ≠ [] ∧
      (body found before).run start.advance = (.error diagnostic, stop) := by
  simp only [whileNext] at h
  fun_induction whileNext.run test body value c with
  | case1 => cases h
  | case2 => cases h
  | case3 value c found htest hleft next after hbody _ ih =>
    exact ih (hround hstart htest hleft hbody) h
  | case4 value c found htest hleft failure after hbody =>
    obtain ⟨hfailure, rfl⟩ := Prod.mk.inj h
    obtain rfl := Except.error.inj hfailure
    exact ⟨value, c, found, hstart, htest, hleft, hbody⟩

end LetScript.Routine

namespace LetScript

open Routine

/-- The test of the loop over members tells a comma. -/
theorem kind_of_comma {c : Cursor} {found : Unit}
    (h : (if c.peek.kind = .comma then some () else none) = some found) :
    c.peek.kind = .comma := by
  split at h
  · assumption
  · contradiction

/-- Where no tokens are left, the closing brace is missing. -/
theorem run_readStmts_of_tokens_eq_nil {statement : Routine Stmt} {c : Cursor}
    (h : c.tokens = []) :
    (readStmts statement).run c = (.error ⟨.unterminatedBlock, c.position⟩, c) := by
  simp only [readStmts]
  unfold readStmts.run
  split
  · rfl
  · rename_i heq
    rw [h] at heq
    contradiction

/-- Statements end before a closing brace. -/
theorem run_readStmts_of_closeCurly {statement : Routine Stmt} {c : Cursor}
    (h : c.current.kind = .closeCurly) : (readStmts statement).run c = (.ok [], c) := by
  simp only [readStmts]
  unfold readStmts.run
  split
  · rename_i htokens
    simp [Cursor.current, htokens, Token.endOfInput] at h
  · rename_i token rest htokens
    rw [Cursor.current, htokens] at h
    exact if_pos h

/-- Where there is no closing brace, a statement is read, and then the others. -/
theorem run_readStmts_of_ne {statement : Routine Stmt} {c : Cursor} (hleft : c.tokens ≠ [])
    (h : c.current.kind ≠ .closeCurly) :
    (readStmts statement).run c =
      (do
        let first ← statement
        advance
        let rest ← readStmts statement
        return first :: rest).run c := by
  simp only [readStmts]
  rw [readStmts.run]
  split
  · contradiction
  · rename_i token rest htokens
    rw [Cursor.current, htokens] at h
    rw [if_neg (show token.kind ≠ .closeCurly from h), run_bind]
    split <;> rename_i hfirst
    · simp [hfirst]
    · simp only [hfirst, run_bind]
      split <;> rename_i hrest <;> simp [hrest]

/-- What is shown of the end of the input, of a closing brace, and of a statement if it holds after
this statement, holds wherever statements are read. -/
theorem readStmts_induct (statement : Routine Stmt) {motive : Cursor → Prop}
    (ended : ∀ c, c.tokens = [] → motive c)
    (closed : ∀ c, c.current.kind = .closeCurly → motive c)
    (more : ∀ c, c.tokens ≠ [] → c.current.kind ≠ .closeCurly →
      (∀ first after, statement.run c = (.ok first, after) → motive after.advance) → motive c)
    (c : Cursor) : motive c := by
  induction hlength : c.tokens.length using Nat.strongRecOn generalizing c with
  | ind length ih =>
    by_cases hleft : c.tokens = []
    · exact ended c hleft
    · by_cases hclosing : c.current.kind = .closeCurly
      · exact closed c hclosing
      · refine more c hleft hclosing fun first after hfirst => ih _ ?_ _ rfl
        have hle : after.tokens.length ≤ c.tokens.length := by
          simpa only [hfirst] using statement.length_tokens_run_le c
        have hpos := List.length_pos_iff.mpr hleft
        rw [Cursor.tokens_advance, List.length_tail]
        omega

/-- What holds before a closing brace, and of a statement and others after it if it holds of these
others, holds of all the statements that are read. -/
@[elab_as_elim]
theorem run_readStmts_ok {statement : Routine Stmt} {motive : Cursor → List Stmt → Cursor → Prop}
    (closed : ∀ {c : Cursor}, c.peek.kind = .closeCurly → motive c [] c.advance)
    (more : ∀ {c after stop : Cursor} {first : Stmt} {rest : List Stmt},
      statement.run c.advance = (.ok first, after) → motive after rest stop →
        motive c (first :: rest) stop)
    {c stop : Cursor} {trees : List Stmt}
    (h : (readStmts statement).run c.advance = (.ok trees, stop)) : motive c trees stop := by
  generalize hstart : c.advance = start at h
  induction start using readStmts_induct statement generalizing c trees with
  | ended start hnil =>
    rw [run_readStmts_of_tokens_eq_nil hnil] at h
    cases h
  | closed start hclosing =>
    rw [run_readStmts_of_closeCurly hclosing] at h
    cases h
    subst hstart
    exact closed (by rwa [Cursor.current_advance] at hclosing)
  | more start hleft hclosing ih =>
    rw [run_readStmts_of_ne hleft hclosing] at h
    obtain ⟨first, after, hfirst, h⟩ := run_bind_eq_ok_iff.mp h
    rw [run_advance_bind] at h
    obtain ⟨rest, last, hrest, h⟩ := run_bind_eq_ok_iff.mp h
    cases h
    subst hstart
    exact more hfirst (ih first after hfirst rfl hrest)

/-- Statements fail where the input ends, in the first of them, or after it. What holds of the
former two, and before a statement if it holds after this, holds wherever they fail. -/
@[elab_as_elim]
theorem run_readStmts_error {statement : Routine Stmt} {diagnostic : Diagnostic} {stop : Cursor}
    {motive : Cursor → Prop}
    (ended : ∀ {c : Cursor}, c.advance.tokens = [] →
      diagnostic = ⟨.unterminatedBlock, c.advance.position⟩ → stop = c.advance → motive c)
    (fails : ∀ {c : Cursor}, c.peek.kind ≠ .closeCurly →
      statement.run c.advance = (.error diagnostic, stop) → motive c)
    (later : ∀ {c after : Cursor} {first : Stmt}, c.peek.kind ≠ .closeCurly →
      statement.run c.advance = (.ok first, after) → motive after → motive c)
    {c : Cursor} (h : (readStmts statement).run c.advance = (.error diagnostic, stop)) :
    motive c := by
  generalize hstart : c.advance = start at h
  induction start using readStmts_induct statement generalizing c with
  | ended start hnil =>
    rw [run_readStmts_of_tokens_eq_nil hnil] at h
    cases h
    subst hstart
    exact ended hnil rfl rfl
  | closed start hclosing =>
    rw [run_readStmts_of_closeCurly hclosing] at h
    cases h
  | more start hleft hclosing ih =>
    rw [run_readStmts_of_ne hleft hclosing] at h
    subst hstart
    rw [Cursor.current_advance] at hclosing
    rcases run_bind_eq_error_iff.mp h with hfirst | ⟨first, after, hfirst, h⟩
    · exact fails hclosing hfirst
    · rw [run_advance_bind] at h
      rcases run_bind_eq_error_iff.mp h with hrest | ⟨_, _, _, hpure⟩
      · exact later hclosing hfirst (ih first after hfirst rfl hrest)
      · cases hpure

end LetScript
