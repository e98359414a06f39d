import LetScript.Proofs.Failure
import LetScript.Proofs.Simulation

/-!
# The block in which a statement breaks

To tell whether a failure came out of a block, and out of which, the routines are run once more
with every block that fails marked: whatever its failure is, it gives a mark and leaves the cursor
on its opening brace. What is read around a failing block only passes the failure on, so a
statement that gives the mark broke inside a block, and the cursor tells the outermost one.

Marking changes nothing else: a marked routine does what the original does, or it gives the mark
at a block of which the failure is that of the original.
-/

namespace LetScript

open Routine

/-- The routine with `mark` in place of its failures, which leave the cursor where it was. -/
def Routine.marking {α : Type} (routine : Routine α) (mark : Diagnostic) : Routine α where
  run cursor :=
    match routine.run cursor with
    | (.ok value, stop) => (.ok value, stop)
    | (.error _, _) => (.error mark, cursor)
  reaches cursor := by
    have hreaches := routine.reaches cursor
    split <;> rename_i h
    · rwa [h] at hreaches
    · exact .refl

/-- The routines for `levels` levels, with the blocks that fail marked. -/
def Table.markedLevel (table : Table) (mark : Diagnostic) (levels : Nat) : Level :=
  match levels with
  | 0 =>
    { expr := (table.level 0).expr
      block := (table.level 0).block.marking mark }
  | levels + 1 =>
    { expr := (table.markedLevel mark levels).readExpr table
      block := (table.level (levels + 1)).block.marking mark }

/-- The statement that starts at `start` fails, and the outermost block that fails with it starts
at `block`. -/
def Cursor.BreaksInBlock (start block : Cursor) : Prop :=
  ∀ mark : Diagnostic,
    (Table.standard.markedLevel mark nestingLimit).readStmt.run start = (.error mark, block)

/-- The failure itself, or the mark at a block of which it is the failure. -/
def Marks (mark : Diagnostic) (failure failure' : Diagnostic × Cursor) : Prop :=
  failure' = failure ∨ ∃ block levels, failure' = (mark, block) ∧
    (Table.standard.level levels).block.run block = (.error failure.1, failure.2)

/-- What a run and the run with marked blocks have in common: they are at the same cursor until a
block fails. -/
def Simulation.marking (mark : Diagnostic) : Simulation where
  relocation := .id
  near c c' := c' = c
  lost _ := False
  blind _ := False
  turns := Marks mark
  lost_advance := id
  lost_of_blind := False.elim
  kind_of_blind := Cursor.kind_of_false
  current h := congrArg Cursor.current h
  openBraces h := congrArg Cursor.openBraces h
  peek h _ _ := congrArg Cursor.peek h
  advance h _ _ := congrArg Cursor.advance h
  tokens_eq_nil h _ := by rw [h]
  fails _ h := .inl (congrArg _ h)

/-- A marked block gives what the block gives, or marks its failure. -/
theorem Table.follows_marking (mark : Diagnostic) (levels : Nat) {before : Cursor → Prop} :
    Routine.Follows (.marking mark) before (Simulation.marking mark).Sees (Block.relocate .id)
      (standard.level levels).block ((standard.level levels).block.marking mark) := by
  intro c c' hnear _
  obtain rfl : c' = c := hnear
  simp only [marking]
  rcases hrun : (standard.level levels).block.run c' with ⟨diagnostic | tree, stop⟩
  · exact .error (Or.inr ⟨c', levels, rfl, hrun⟩)
  · have hends : (Simulation.marking mark).Ends (Simulation.marking mark).Sees
        (Block.relocate .id) (.ok tree, stop) (.ok (tree.relocate .id), stop) :=
      .ok tree rfl not_false
    rwa [Block.relocate_id] at hends

/-- Marking turns the failure of a block into the mark, and changes nothing else. -/
theorem Table.follows_markedLevel (mark : Diagnostic) (levels : Nat) :
    (standard.level levels).Follows (.marking mark) (standard.markedLevel mark levels) := by
  induction levels with
  | zero => exact ⟨fun _ => .fail _ _, follows_marking mark 0⟩
  | succ levels ih => exact ⟨ih.readExpr, follows_marking mark (levels + 1)⟩

/-- A diagnostic that no routine gives: the kind it expects is the one it finds. -/
def Diagnostic.mark : Diagnostic := ⟨.unexpectedToken .eof .eof, .null⟩

namespace Cursor

variable {c stop : Cursor} {diagnostic : Diagnostic}

theorem Refuses.ne_mark (h : c.Refuses diagnostic stop) : diagnostic ≠ .mark := by
  intro hmark
  cases h with
  | unexpected hne =>
    injection hmark with hcause
    injection hcause with hexpected hfound
    exact hne (hfound.trans hexpected.symm)
  | noRule =>
    injection hmark with hcause
    unfold Level.refusal at hcause
    split at hcause <;> cases hcause
  | unreadable => cases hmark
  | tooDeep => cases hmark

theorem Breaks.ne_mark {front : List Token → Prop} (h : c.Breaks front diagnostic stop) :
    diagnostic ≠ .mark := by
  obtain ⟨tokens, between, -, -, hrefuses | hunterminated⟩ := h
  · exact hrefuses.ne_mark
  · intro hmark
    cases hunterminated
    cases hmark

/-- Where the diagnostic is the mark, the reading stopped on the opening brace of a block, with
balanced tokens before. -/
def StopsAtBlock (c : Cursor) (diagnostic : Diagnostic) (stop : Cursor) : Prop :=
  diagnostic = .mark → ∃ tokens between, c.Takes tokens between ∧ Balanced tokens ∧
    between.peek.kind = .openCurly ∧ stop = between.advance

end Cursor

namespace Table

/-- Marking does not change what is read. -/
theorem run_marking_eq_ok {α : Type} {routine : Routine α} {mark : Diagnostic} {c stop : Cursor}
    {value : α} (h : (routine.marking mark).run c = (.ok value, stop)) :
    routine.run c = (.ok value, stop) := by
  simp only [marking] at h
  split at h
  · rwa [← h]
  · cases h

theorem sound_markedLevel (mark : Diagnostic) (levels : Nat) :
    (standard.markedLevel mark levels).Sound levels := by
  induction levels with
  | zero =>
    constructor
    · intro power c stop tree hrun
      cases hrun
    · intro c stop tree _ hrun
      cases hrun
  | succ levels ih =>
    constructor
    · exact ih.readExpr
    · intro c stop tree hopening hrun
      exact (sound_level (levels + 1)).block hopening (run_marking_eq_ok hrun)

/-- The marked routines stop at the outermost block that fails. -/
theorem failing_markedLevel (levels : Nat) :
    (standard.markedLevel .mark levels).Failing levels Cursor.StopsAtBlock := by
  have hblock {n : Nat} {c stop : Cursor} {diagnostic : Diagnostic}
      (hopening : c.peek.kind = .openCurly)
      (hrun : ((standard.level n).block.marking .mark).run c.advance =
        (.error diagnostic, stop)) : c.StopsAtBlock diagnostic stop := by
    intro _
    simp only [marking] at hrun
    split at hrun
    · cases hrun
    · cases hrun
      exact ⟨[], c, .nil c, .nil, hopening, rfl⟩
  have hhere {c stop : Cursor} {diagnostic : Diagnostic} (hrefuses : c.Refuses diagnostic stop) :
      c.StopsAtBlock diagnostic stop :=
    fun hmark => absurd hmark hrefuses.ne_mark
  have hlater {c between stop : Cursor} {diagnostic : Diagnostic} {tokens : List Token}
      (htakes : c.Takes tokens between) (hclause : Clause tokens)
      (hstops : between.StopsAtBlock diagnostic stop) : c.StopsAtBlock diagnostic stop := by
    intro hmark
    obtain ⟨more, last, htakesMore, hmore, hopening, rfl⟩ := hstops hmark
    exact ⟨tokens ++ more, last, htakes.append htakesMore, hclause.balanced.append hmore, hopening,
      rfl⟩
  induction levels with
  | zero =>
    refine ⟨sound_markedLevel .mark 0, hhere, hlater, ?_, hblock (n := 0)⟩
    intro power c stop diagnostic hrun
    cases hrun
    exact hhere .tooDeep
  | succ levels ih =>
    exact ⟨sound_markedLevel .mark (levels + 1), hhere, hlater, ih.readExpr,
      hblock (n := levels + 1)⟩

end Table

namespace Cursor.BreaksInBlock

variable {start block : Cursor}

/-- The block in which a statement breaks is where the marked reading stops: at an opening brace
after balanced tokens. -/
theorem exists_before (h : start.BreaksInBlock block) (houtside : start.Outside) :
    ∃ tokens between, (before start.tokens start.finish 0).Takes tokens between ∧
      Balanced tokens ∧ between.peek.kind = .openCurly ∧ block = between.advance := by
  have hrun := h .mark
  rw [houtside.eq_advance] at hrun
  exact (Table.failing_markedLevel nestingLimit).readStmt hrun rfl

/-- The failure of the statement is that of the block. -/
theorem exists_failure (h : start.BreaksInBlock block) (houtside : start.Outside) :
    ∃ diagnostic stop levels, Table.standard.statement.run start = (.error diagnostic, stop) ∧
      (Table.standard.level levels).block.run block = (.error diagnostic, stop) := by
  have hmarked := h .mark
  have hends := (Table.follows_markedLevel .mark nestingLimit).readStmt start start rfl trivial
  rw [hmarked] at hends
  generalize horiginal : (Table.standard.level nestingLimit).readStmt.run start = outcome at hends
  cases hends with
  | lost hlost => exact hlost.elim
  | @error diagnostic _ stop _ hmarks =>
    rcases hmarks with heq | ⟨other, levels, heq, hblock⟩
    · obtain ⟨rfl, rfl⟩ := Prod.mk.inj heq
      rw [houtside.eq_advance] at horiginal
      exact absurd rfl ((Table.failing_level nestingLimit).readStmt horiginal).ne_mark
    · obtain ⟨-, rfl⟩ := Prod.mk.inj heq
      exact ⟨diagnostic, stop, levels, horiginal, hblock⟩

end Cursor.BreaksInBlock

end LetScript
