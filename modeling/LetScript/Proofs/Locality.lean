import LetScript.Proofs.Attempts
import LetScript.Proofs.Simulation

/-!
# Two sources with a common front

Reading looks at the current token and at the next one, so it cannot tell two sources apart before
it comes to the last token they have in common. Statements that end earlier are read alike, and
the next one is begun at the same place. What happens to a statement that goes further depends on
what comes there.
-/

namespace LetScript

/-- The cursors see the same as far as a common front goes, after which `left` and `right` come. -/
structure Cursor.Shares (left right : List Token) (c c' : Cursor) : Prop where
  current : c'.current = c.current
  finish : c'.finish = c.finish
  openBraces : c'.openBraces = c.openBraces
  front : ∃ front, c.tokens.tail = front ++ left ∧ c'.tokens.tail = front ++ right

namespace Cursor.Shares

variable {left right : List Token} {c c' : Cursor}

protected theorem symm (h : c.Shares left right c') : c'.Shares right left c := by
  obtain ⟨front, htail, htail'⟩ := h.front
  exact ⟨h.current.symm, h.finish.symm, h.openBraces.symm, front, htail', htail⟩

/-- Sources with a common front share it. -/
theorem ofTokens {front : List Token} (hfront : front ≠ []) (left right : List Token)
    (finish : Position) :
    (Cursor.ofTokens (front ++ left) finish).Shares left right
      (Cursor.ofTokens (front ++ right) finish) := by
  obtain ⟨token, front, rfl⟩ := List.exists_cons_of_ne_nil hfront
  exact ⟨rfl, rfl, rfl, front, rfl, rfl⟩

/-- Where something of the common front is left, the next token is in it. -/
theorem exists_front (h : c.Shares left right c') (hleft : left.length < c.tokens.tail.length) :
    ∃ token front, c.tokens.tail = token :: (front ++ left) ∧
      c'.tokens.tail = token :: (front ++ right) := by
  obtain ⟨front, htail, htail'⟩ := h.front
  cases front with
  | nil => simp [htail] at hleft
  | cons token front => exact ⟨token, front, htail, htail'⟩

theorem peek (h : c.Shares left right c') (hleft : left.length < c.tokens.tail.length) :
    c'.peek = c.peek := by
  obtain ⟨token, front, htail, htail'⟩ := h.exists_front hleft
  rw [peek_of_tail_eq htail, peek_of_tail_eq htail']

theorem advance (h : c.Shares left right c') (hleft : left.length < c.tokens.tail.length) :
    c.advance.Shares left right c'.advance := by
  obtain ⟨token, front, htail, htail'⟩ := h.exists_front hleft
  have hpeek := h.peek hleft
  refine ⟨hpeek, h.finish, ?_, front, by rw [tokens_advance, htail, List.tail_cons],
    by rw [tokens_advance, htail', List.tail_cons]⟩
  rw [Cursor.advance, Cursor.advance, hpeek, h.openBraces]

theorem tokens_ne_nil (hleft : left.length < c.tokens.tail.length) : c.tokens ≠ [] := by
  intro hnil
  simp [hnil] at hleft

theorem tokens_ne_nil' (h : c.Shares left right c') (hleft : left.length < c.tokens.tail.length) :
    c'.tokens ≠ [] := by
  obtain ⟨token, front, -, htail'⟩ := h.exists_front hleft
  intro hnil
  simp [hnil] at htail'

/-- What is left of the common front is the same for both cursors. -/
theorem tokens_eq (h : c.Shares left right c') {front : List Token}
    (htokens : c.tokens = front ++ left) (hleft : left.length < c.tokens.tail.length) :
    c'.tokens = front ++ right := by
  obtain ⟨shared, htail, htail'⟩ := h.front
  obtain ⟨token, rest, hrest⟩ := List.exists_cons_of_ne_nil (h.tokens_ne_nil' hleft)
  cases front with
  | nil =>
    rw [List.nil_append] at htokens
    rw [htokens, List.length_tail] at hleft
    omega
  | cons first front =>
    obtain rfl : shared = front := by
      rw [htokens, List.cons_append, List.tail_cons] at htail
      exact (List.append_cancel_right htail).symm
    have hcurrent : token = first := by
      have hcurrent := h.current
      rwa [Cursor.current, Cursor.current, htokens, hrest] at hcurrent
    rw [hrest, hcurrent, List.cons_append]
    rw [hrest, List.tail_cons] at htail'
    rw [htail']

end Cursor.Shares

/-- What the runs on two sources with a common front have in common, until the first of them comes
to its last token. -/
def Simulation.sharing (left right : List Token) : Simulation where
  relocation := .id
  near := Cursor.Shares left right
  lost c := c.tokens.tail.length ≤ left.length
  blind _ := False
  turns failure failure' := failure'.1 = failure.1 ∧ failure.2.Shares left right failure'.2
  lost_advance {c} h := by
    rw [Cursor.tokens_advance, List.length_tail]
    omega
  lost_of_blind := False.elim
  kind_of_blind := Cursor.kind_of_false
  current h := h.current
  openBraces h := h.openBraces
  peek h hlost _ := h.peek (Nat.lt_of_not_le hlost)
  advance h hlost _ := h.advance (Nat.lt_of_not_le hlost)
  tokens_eq_nil h hlost :=
    iff_of_false (h.tokens_ne_nil' (Nat.lt_of_not_le hlost))
      (Cursor.Shares.tokens_ne_nil (Nat.lt_of_not_le hlost))
  fails _ h := ⟨rfl, h⟩

/-- As long as statements are read and the run has not come too far, they are read in a second run
as well, and the next attempt of both is made at places that belong together. -/
theorem Simulation.attempts_eq (S : Simulation) {c c' : Cursor} (hnear : S.near c c')
    {first second : List Attempt} {attempt : Attempt}
    (hattempts : attempts Table.standard.statement c = first ++ attempt :: second)
    (hsucceeded : Attempt.diagnostics first = []) (hlost : ¬ S.lost attempt.start) :
    ∃ first' start', attempts Table.standard.statement c' =
        first' ++ attempts Table.standard.statement start' ∧
      S.near attempt.start start' ∧ Attempt.diagnostics first' = [] ∧
      (Attempt.program first').statements =
        (Attempt.program first).statements.map (Stmt.relocate S.relocation) := by
  induction first generalizing c c' with
  | nil =>
    obtain ⟨-, rfl, -⟩ := of_attempts_eq_cons hattempts
    exact ⟨[], c', rfl, hnear, rfl, rfl⟩
  | cons other rest ih =>
    obtain ⟨hleft, hother, hrest⟩ := of_attempts_eq_cons hattempts
    obtain ⟨start, result, stop⟩ := other
    cases result with
    | error diagnostic =>
      rw [Attempt.diagnostics_cons_error] at hsucceeded
      contradiction
    | ok tree =>
      rw [Attempt.diagnostics_cons_ok] at hsucceeded
      obtain ⟨rfl, hrun⟩ : start = c ∧ Table.standard.statement.run c = (.ok tree, stop) := by
        simp only [Attempt.ofCursor, Attempt.mk.injEq] at hother
        exact ⟨hother.1, (Prod.ext hother.2.1 hother.2.2).symm⟩
      have hnext : stop.advance.Reaches attempt.start := (of_attempts_eq_append hrest).1
      have hsees : S.Sees stop := fun h => hlost (lost_of_reaches (S.lost_of_blind h) hnext)
      have hstop : ¬ S.lost stop := fun h => hlost (lost_of_reaches (S.lost_advance h) hnext)
      have hstart : ¬ S.lost start := by
        have hreaches := Table.standard.statement.reaches start
        rw [hrun] at hreaches
        exact fun h => hstop (lost_of_reaches h hreaches)
      have hends := Table.follows_statement S start c' hnear trivial
      generalize hrun' : Table.standard.statement.run c' = outcome at hends
      rw [hrun] at hends
      cases hends with
      | lost h => exact absurd h hstop
      | @ok _ stop' _ hnear' _ =>
        obtain ⟨first', start', hattempts', hnext', hdiagnostics, hstatements⟩ :=
          ih (S.advance hnear' hstop hsees) hrest hsucceeded
        have hleft' := mt (S.tokens_eq_nil hnear hstart).mp hleft
        refine ⟨⟨c', .ok (tree.relocate S.relocation), stop'⟩ :: first', start', ?_, hnext',
          hdiagnostics, ?_⟩
        · rw [attempts_eq_cons hleft' hrun']
          exact congrArg (List.cons _) hattempts'
        · rw [Attempt.statements_program_cons_ok, Attempt.statements_program_cons_ok, hstatements,
            List.map_cons]

/-- Where a statement is read from more tokens than are shared, its other reading comes to the
last of those, too. -/
theorem Cursor.Shares.length_tail_stop_le {left right : List Token} {c c' stop : Cursor}
    {tree : Stmt} (h : c.Shares left right c')
    (hrun : Table.standard.statement.run c = (.ok tree, stop))
    (hstop : stop.tokens.tail.length < left.length) :
    (Table.standard.statement.run c').2.tokens.tail.length ≤ right.length := by
  have hends := Table.follows_statement (.sharing right left) c' c h.symm trivial
  generalize Table.standard.statement.run c' = outcome at hends ⊢
  rw [hrun] at hends
  generalize hvalue : (Except.ok tree : Except Diagnostic Stmt) = value at hends
  cases hends with
  | ok _ hshares _ =>
    obtain ⟨front, -, htail⟩ := hshares.front
    rw [htail, List.length_append] at hstop
    omega
  | error _ => contradiction
  | lost hlost => exact hlost

end LetScript
