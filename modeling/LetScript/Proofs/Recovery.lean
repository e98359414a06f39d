import LetScript.Proofs.Attempts
import LetScript.Proofs.BrokenBlock
import LetScript.Proofs.Skipping

/-!
# Where reading goes on after a broken block

A statement that breaks inside a block is skipped through the brace that closes the outermost
block it breaks in, and a semicolon after that. Whether it broke inside a block is told from the
count of open braces where the reading stopped. The count is still positive there unless the token
that could not be read is the very brace that closes the outermost block. Then the brace counts as
closed already, the statement is taken for one that broke outside all blocks, and everything up
to the next semicolon is skipped with it.

Hence reading goes on right after the block exactly if it does not stop on that brace, or if a
semicolon or nothing comes after it.
-/

namespace LetScript

/-- Where a reading that breaks inside a block stops: at a place in the block, with the same
closing brace to come, or on that brace. -/
theorem Cursor.stop_of_block {c stop : Cursor} {diagnostic : Diagnostic} {levels : Nat}
    (hopening : c.peek.kind = .openCurly) (hzero : c.openBraces = 0)
    (hrun : (Table.standard.level levels).block.run c.advance = (.error diagnostic, stop)) :
    (0 < stop.openBraces ∧
      closingFrom 0 c.advance.tokens = closingFrom stop.openBraces stop.tokens.tail) ∨
    (stop.openBraces = 0 ∧ stop.current.kind = .closeCurly ∧
      closingFrom 0 c.advance.tokens = some stop.tokens) := by
  have hopen : c.advance.openBraces = 0 + 1 := by
    rw [advance, hopening, hzero]
    rfl
  have hstart : closingFrom 0 c.advance.tokens =
      closingFrom c.advance.openBraces c.advance.tokens.tail := by
    have hkind : c.peek.kind ≠ .eof := by simp [hopening]
    obtain ⟨rest, htail⟩ := exists_tail_eq hkind
    rw [tokens_advance, htail, closingFrom, hopening, hopen]
    rfl
  have hstop : ∃ tokens last, c.advance.Takes tokens last ∧ Guarded tokens ∧
      (stop = last ∨ stop = last.advance) := by
    rcases Table.breaks_of_block (fun n _ => Table.failing_level n) hrun with hbreaks | ⟨-, rfl⟩
    · obtain ⟨tokens, last, htakes, hbegun, -, hstop⟩ := hbreaks.exists_stop
      exact ⟨tokens, last, htakes, hbegun.guarded, hstop⟩
    · exact ⟨[], c.advance, .nil _, Balanced.nil.guarded, .inl rfl⟩
  obtain ⟨tokens, last, htakes, hguarded, hstop⟩ := hstop
  obtain ⟨after, hdepth⟩ := guarded_iff.mp hguarded
  obtain ⟨hpos, heq⟩ := htakes.closingFrom_eq hdepth hopen
  rw [hstart, heq]
  rcases hstop with rfl | rfl
  · exact .inl ⟨hpos, rfl⟩
  · exact closingFrom_advance hpos

/-- Reading goes on right after the outermost block in which a statement breaks, and after a
semicolon there, exactly if it does not stop on the brace that closes this block, or a semicolon
or nothing comes after that brace. -/
theorem next_tokens_eq_afterBlock_iff {source : String} {file : Option String} {attempt : Attempt}
    {block : Cursor} (hmem : attempt ∈ sourceAttempts source file)
    (hbreaks : attempt.start.BreaksInBlock block) :
    attempt.next.tokens = afterBlock block.tokens ↔
      (closingFrom 0 block.tokens = some attempt.stop.tokens →
        firstKind attempt.stop.tokens.tail .semicolon = .semicolon) := by
  obtain ⟨houtside, hattempt⟩ := outside_of_mem_sourceAttempts hmem
  obtain ⟨first, between, htakes, hbalanced, hopening, rfl⟩ := hbreaks.exists_before houtside
  obtain ⟨diagnostic, stop, levels, hstatement, hblock⟩ := hbreaks.exists_failure houtside
  have hstop : attempt.stop = stop := by
    rw [hattempt, Attempt.ofCursor, hstatement]
  have hnext : attempt.next = (stop.skipBroken (0 < stop.openBraces)).advance := by
    rw [hattempt, Attempt.next, Attempt.last, Attempt.ofCursor, hstatement]
    rfl
  have hzero : between.openBraces = 0 := htakes.openBraces_of_balanced hbalanced
  rw [hnext, hstop, afterBlock]
  rcases Cursor.stop_of_block hopening hzero hblock with ⟨hpos, heq⟩ | ⟨hclosed, hcurrent, heq⟩
  · rw [heq, decide_eq_true hpos, Cursor.tokens_advance_skipBroken_true hpos]
    exact iff_of_true rfl fun hfound => absurd hfound (closingFrom_tail_ne _ _)
  · obtain ⟨hne, -⟩ := closingFrom_suffix heq
    obtain ⟨closing, rest, htokens⟩ := List.exists_cons_of_ne_nil hne
    have hclose : closing.kind = .closeCurly := by simpa [Cursor.current, htokens] using hcurrent
    rw [heq, show decide (0 < stop.openBraces) = false by simp [hclosed], afterClosing, htokens,
      List.tail_cons, Cursor.tokens_advance_skipBroken_false htokens hclose hclosed]
    exact ⟨fun h _ => h, fun h => h rfl⟩

/-- A statement that breaks before the closing brace is skipped through that brace. -/
theorem next_tokens_of_unfinished_binding :
    ∃ attempt ∈ sourceAttempts "fn() { let } y;" none, ∃ block,
      attempt.start.BreaksInBlock block ∧ attempt.next.tokens = afterBlock block.tokens := by
  have hbreaks : let start := Cursor.ofString "fn() { let } y;" none
      start.BreaksInBlock start.advance.advance.advance := by
    intro start mark
    with_unfolding_all rfl
  have hmem : .ofCursor Table.standard.statement (.ofString "fn() { let } y;" none) ∈
      sourceAttempts "fn() { let } y;" none := by
    rw [sourceAttempts, attempts_of_tokens_ne_nil (by decide +kernel)]
    exact List.mem_cons_self
  refine ⟨_, hmem, _, hbreaks, (next_tokens_eq_afterBlock_iff hmem hbreaks).mpr ?_⟩
  decide +kernel

/-- A statement that breaks on the closing brace of its block takes the statement after it along. -/
theorem next_tokens_of_missing_operand :
    ∃ attempt ∈ sourceAttempts "if (x) { - } let y = 2; let z = 3;" none, ∃ block,
      attempt.start.BreaksInBlock block ∧ attempt.next.tokens ≠ afterBlock block.tokens := by
  have hbreaks : let start := Cursor.ofString "if (x) { - } let y = 2; let z = 3;" none
      start.BreaksInBlock start.advance.advance.advance.advance := by
    intro start mark
    with_unfolding_all rfl
  refine ⟨.ofCursor Table.standard.statement (.ofString _ none), ?_, _, hbreaks, ?_⟩
  · rw [sourceAttempts, attempts_of_tokens_ne_nil (by decide +kernel)]
    exact List.mem_cons_self
  · decide +kernel

end LetScript
