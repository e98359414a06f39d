import LetScript.Proofs.Attempts
import LetScript.Proofs.Failure
import LetScript.Proofs.Skipping

/-!
# How far a broken statement extends

A statement ends with the first semicolon outside all braces at the latest, whether it is read or
breaks before: reading never stops after that semicolon. Where this semicolon comes right after
the closing brace of a block, and the reading has come as far as that block, the statement
extends exactly to the semicolon: what is skipped ends there, too.
-/

namespace LetScript

open Routine

/-- A terminator takes a semicolon that is there. -/
theorem Routine.current_of_expectTerminator {c stop : Cursor} {u : Unit}
    (hrun : expectTerminator.run c = (.ok u, stop)) (hpeek : stop.peek.kind = .semicolon) :
    stop.current.kind = .semicolon := by
  rw [run_expectTerminator] at hrun
  split at hrun
  · rename_i hends
    cases hrun
    simp [Cursor.peekEndsStatement, hpeek] at hends
  · obtain ⟨hkind, rfl⟩ := run_expectPeek_eq_ok_iff.mp hrun
    exact hkind

/-- A statement that is read takes a semicolon that is there. -/
theorem Level.current_of_readStmt {inner : Level} {c stop : Cursor} {tree : Stmt}
    (hrun : inner.readStmt.run c = (.ok tree, stop)) (hpeek : stop.peek.kind = .semicolon) :
    stop.current.kind = .semicolon := by
  simp only [readStmt, run_current_bind] at hrun
  split at hrun
  · simp only [readBinding, run_current_bind] at hrun
    obtain ⟨-, hrest⟩ := run_expectPeek_bind_eq_ok_iff.mp hrun
    rw [run_current_bind] at hrest
    obtain ⟨-, hrest⟩ := run_expectPeek_bind_eq_ok_iff.mp hrest
    rw [run_advance_bind] at hrest
    obtain ⟨value, afterValue, -, hrest⟩ := run_bind_eq_ok_iff.mp hrest
    obtain ⟨_, last, hend, hrest⟩ := run_bind_eq_ok_iff.mp hrest
    cases hrest
    exact current_of_expectTerminator hend hpeek
  · simp only [readReturning, run_current_bind, run_here_bind] at hrun
    split at hrun
    · obtain ⟨_, last, hend, hrest⟩ := run_bind_eq_ok_iff.mp hrun
      cases hrest
      exact current_of_expectTerminator hend hpeek
    · rw [run_advance_bind] at hrun
      obtain ⟨value, afterValue, -, hrest⟩ := run_bind_eq_ok_iff.mp hrun
      obtain ⟨_, last, hend, hrest⟩ := run_bind_eq_ok_iff.mp hrest
      cases hrest
      exact current_of_expectTerminator hend hpeek
  · simp only [readExpression, run_current_bind] at hrun
    obtain ⟨value, afterValue, -, hrest⟩ := run_bind_eq_ok_iff.mp hrun
    simp only [run_peekKind_bind] at hrest
    split at hrest
    · cases hrest
      assumption
    · cases hrest
      contradiction

namespace Table

/-- Reading a statement stops on the last of some tokens with which a statement may start, or on
the token after them. -/
theorem exists_stop_of_statement {c stop : Cursor} {result : Except Diagnostic Stmt}
    (hrun : standard.statement.run c.advance = (result, stop)) :
    ∃ tokens between, c.Takes tokens between ∧ Unfinished tokens ∧
      (stop = between ∨ stop = between.advance) := by
  cases result with
  | error diagnostic =>
    have hbreaks := (failing_level nestingLimit).readStmt hrun
    obtain ⟨tokens, between, htakes, hunfinished, -, hstop⟩ := hbreaks.exists_stop
    exact ⟨tokens, between, htakes, hunfinished, hstop⟩
  | ok tree =>
    obtain ⟨tokens, nesting, htakes, hderives, -⟩ := (sound_level nestingLimit).readStmt rfl hrun
    have hsentence : Sentence tokens := hderives.outline
    cases hsentence with
    | clause h => exact ⟨tokens, stop, htakes, .of_clause h, .inl rfl⟩
    | ended h _ =>
      obtain ⟨between, htokens, hlast⟩ := htakes.split
      exact ⟨_, between, htokens, .of_clause h, .inr hlast.eq_advance⟩

/-- Reading a statement never stops after the first semicolon outside all braces. -/
theorem exists_takes_of_statement {c stop : Cursor} {result : Except Diagnostic Stmt}
    (hrun : standard.statement.run c.advance = (result, stop)) {front rest : List Token}
    {semicolon : Token} (hfront : Balanced front) (hsemicolon : semicolon.kind = .semicolon)
    (htail : c.tokens.tail = front ++ semicolon :: rest) :
    ∃ taken more, c.Takes taken stop ∧ front ++ [semicolon] = taken ++ more := by
  obtain ⟨tokens, between, htakes, hunfinished, hstop⟩ := exists_stop_of_statement hrun
  have hbefore : ∃ left, front = tokens ++ left ∧
      between.tokens.tail = left ++ semicolon :: rest := by
    rcases List.append_eq_append_iff.mp (htakes.tail_eq.symm.trans htail) with
      hleft | ⟨more, rfl, hmore⟩
    · exact hleft
    · cases more with
      | nil => exact ⟨[], by simp, hmore.symm⟩
      | cons token more =>
        obtain ⟨rfl, -⟩ := List.cons.inj hmore
        exact absurd hsemicolon (hunfinished.unended front semicolon more rfl hfront)
  obtain ⟨left, rfl, hbetween⟩ := hbefore
  rcases hstop with rfl | rfl
  · exact ⟨tokens, left ++ [semicolon], htakes, List.append_assoc _ _ _⟩
  · cases left with
    | nil => exact ⟨tokens ++ [semicolon], [], htakes.append (.cons hbetween (.nil _)), by simp⟩
    | cons token left =>
      exact ⟨tokens ++ [token], left ++ [semicolon], htakes.append (.cons hbetween (.nil _)),
        by simp⟩

end Table

section Semicolon

variable {c stop : Cursor} {front taken more rest : List Token} {semicolon : Token}

/-- What is left after a part of what stands before the rest. -/
theorem Cursor.Takes.tail_of_append (htakes : c.Takes taken stop)
    (htail : c.tokens.tail = front ++ semicolon :: rest)
    (heq : front ++ [semicolon] = taken ++ more) : stop.tokens.tail = more ++ rest := by
  have hwhole : c.tokens.tail = taken ++ (more ++ rest) := by
    rw [← List.append_assoc, ← heq, htail]
    simp
  exact List.append_cancel_left (htakes.tail_eq.symm.trans hwhole)

/-- Skipping from outside all braces does not go past a semicolon there. -/
theorem Cursor.exists_takes_skipBroken (hzero : c.openBraces = 0) (hfront : Balanced front)
    (hsemicolon : semicolon.kind = .semicolon) (htail : c.tokens.tail = front ++ semicolon :: rest)
    (inside : Bool) (htakes : c.Takes taken stop) (htaken : taken ≠ [])
    (heq : front ++ [semicolon] = taken ++ more) :
    ∃ taken' more', c.Takes taken' (stop.skipBroken inside) ∧
      front ++ [semicolon] = taken' ++ more' ∧ (stop.skipBroken inside).openBraces = 0 := by
  have hend {stop : Cursor} (htakes : c.Takes (front ++ [semicolon]) stop) :
      stop.openBraces = 0 ∧ stop.tokens = semicolon :: stop.tokens.tail := by
    have hlast : Balanced [semicolon] := .single (by simp [hsemicolon]) (by simp [hsemicolon])
    have hclosed := htakes.openBraces_of_balanced (hfront.append hlast)
    exact ⟨hclosed.trans hzero, htakes.tokens_eq⟩
  have hstep {stop : Cursor} {taken more : List Token} {token : Token} (htakes : c.Takes taken stop)
      (heq : front ++ [semicolon] = taken ++ token :: more) :
      c.Takes (taken ++ [token]) stop.advance ∧
        front ++ [semicolon] = taken ++ [token] ++ more :=
    ⟨htakes.append (.cons (htakes.tail_of_append htail heq) (.nil _)), by simp [heq]⟩
  fun_induction skipBroken inside stop generalizing taken more with
  | case1 stop hnil =>
    obtain ⟨init, last, rfl⟩ := (List.eq_nil_or_concat taken).resolve_left htaken
    rw [List.concat_eq_append] at htakes
    rw [htakes.tokens_eq] at hnil
    contradiction
  | case2 stop token left _ h => exact ⟨taken, more, htakes, heq, h.1⟩
  | case3 stop token left htokens hnot h hpeek =>
    cases more with
    | nil =>
      rw [List.append_nil] at heq
      obtain ⟨-, hstop⟩ := hend (heq ▸ htakes)
      rw [htokens] at hstop
      obtain ⟨rfl, -⟩ := List.cons.inj hstop
      exact absurd ⟨h.1, hsemicolon⟩ hnot
    | cons next more =>
      obtain ⟨htakes, heq⟩ := hstep htakes heq
      exact ⟨_, more, htakes, heq, by simp [advance, hpeek, h.1, Kind.openBraces_eq]⟩
  | case4 stop token left _ _ h => exact ⟨taken, more, htakes, heq, h.1⟩
  | case5 stop token left htokens hnot _ _ ih =>
    cases more with
    | nil =>
      rw [List.append_nil] at heq
      obtain ⟨hclosed, hstop⟩ := hend (heq ▸ htakes)
      rw [htokens] at hstop
      obtain ⟨rfl, -⟩ := List.cons.inj hstop
      exact absurd ⟨hclosed, hsemicolon⟩ hnot
    | cons next more =>
      obtain ⟨htakes, heq⟩ := hstep htakes heq
      exact ih htakes (by simp) heq

/-- No attempt ends right before a semicolon, but it may end on one. -/
theorem Attempt.current_last {start : Cursor}
    (h : (ofCursor Table.standard.statement start).last.peek.kind = .semicolon) :
    (ofCursor Table.standard.statement start).last.current.kind = .semicolon := by
  rcases hrun : Table.standard.statement.run start with ⟨result, stop⟩
  have hattempt : ofCursor Table.standard.statement start = ⟨start, result, stop⟩ := by
    rw [ofCursor, hrun]
  rw [hattempt] at h ⊢
  cases result with
  | ok tree => exact Level.current_of_readStmt hrun h
  | error diagnostic => exact Cursor.current_skipBroken h

/-- An attempt extends at most to the first semicolon outside all braces. -/
theorem Attempt.exists_takes_last (hzero : c.openBraces = 0) (hfront : Balanced front)
    (hsemicolon : semicolon.kind = .semicolon)
    (htail : c.tokens.tail = front ++ semicolon :: rest) :
    ∃ taken more, c.Takes taken (ofCursor Table.standard.statement c.advance).last ∧
      front ++ [semicolon] = taken ++ more ∧ Balanced taken ∧
      (ofCursor Table.standard.statement c.advance).extent = taken ∧ taken ≠ [] := by
  rcases hrun : Table.standard.statement.run c.advance with ⟨result, stop⟩
  have hattempt : ofCursor Table.standard.statement c.advance = ⟨c.advance, result, stop⟩ := by
    rw [ofCursor, hrun]
  have hleft : c.tokens ≠ [] := by
    intro hnil
    simp [hnil] at htail
  have hwhole : Balanced (front ++ [semicolon]) :=
    hfront.append (.single (by simp [hsemicolon]) (by simp [hsemicolon]))
  obtain ⟨taken, more, htakes, heq, hclosed⟩ : ∃ taken more,
      c.Takes taken (ofCursor Table.standard.statement c.advance).last ∧
        front ++ [semicolon] = taken ++ more ∧
        (ofCursor Table.standard.statement c.advance).last.openBraces = 0 := by
    obtain ⟨taken, more, htakes, heq⟩ :=
      Table.exists_takes_of_statement hrun hfront hsemicolon htail
    rw [hattempt]
    cases result with
    | ok tree =>
      obtain ⟨tokens, nesting, htokens, hderives, -⟩ :=
        (Table.sound_level nestingLimit).readStmt rfl hrun
      exact ⟨taken, more, htakes, heq,
        (htokens.openBraces_of_balanced hderives.balanced).trans hzero⟩
    | error diagnostic =>
      have hreaches := Table.standard.statement.reaches c.advance
      rw [hrun] at hreaches
      exact Cursor.exists_takes_skipBroken hzero hfront hsemicolon htail _ htakes
        (htakes.ne_nil_of_reaches hleft hreaches) heq
  have htaken := htakes.ne_nil_of_reaches hleft (reaches_last _ _)
  have hguarded : Guarded taken :=
    hwhole.guarded.of_prefix (heq ▸ List.prefix_append taken more)
  exact ⟨taken, more, htakes, heq, htakes.balanced_of_guarded hguarded hzero hclosed,
    htakes.through_eq_of_ne_nil htaken, htaken⟩

/-- The attempts before a semicolon outside all braces extend exactly to it. -/
theorem exists_attempts_of_semicolon (hzero : c.openBraces = 0) (hfront : Balanced front)
    (hsemicolon : semicolon.kind = .semicolon)
    (htail : c.tokens.tail = front ++ semicolon :: rest) :
    ∃ found stop, attempts Table.standard.statement c.advance =
        found ++ attempts Table.standard.statement stop.advance ∧
      c.Takes (front ++ [semicolon]) stop ∧
      found.flatMap Attempt.extent = front ++ [semicolon] ∧
      ∀ attempt ∈ found, attempt.extent ≠ [] := by
  induction hlength : front.length using Nat.strongRecOn generalizing c front with
  | ind length ih =>
    obtain ⟨taken, more, htakes, heq, hbalanced, hextent, htaken⟩ :=
      Attempt.exists_takes_last hzero hfront hsemicolon htail
    have hleft : c.advance.tokens ≠ [] := by simp [htail]
    rw [attempts_of_tokens_ne_nil hleft]
    generalize Attempt.ofCursor Table.standard.statement c.advance = attempt at htakes hextent
    rcases List.eq_nil_or_concat more with rfl | ⟨front', last, rfl⟩
    · rw [List.append_nil] at heq
      exact ⟨[attempt], attempt.last, rfl, heq ▸ htakes, by simp [hextent, heq],
        by simp [hextent, htaken]⟩
    · rw [List.concat_eq_append, ← List.append_assoc] at heq
      obtain ⟨rfl, hlast⟩ := List.append_inj' heq rfl
      obtain rfl := List.singleton_inj.mp hlast
      have hshorter : front'.length < length := by
        have hpos := List.length_pos_iff.mpr htaken
        rw [← hlength, List.length_append]
        omega
      have hrest : attempt.last.tokens.tail = front' ++ semicolon :: rest := by
        have hsplit : taken ++ front' ++ [semicolon] = taken ++ (front' ++ [semicolon]) := by simp
        simpa using htakes.tail_of_append htail hsplit
      obtain ⟨found, stop, hattempts, htakes', hfound, hextents⟩ :=
        ih _ hshorter ((htakes.openBraces_of_balanced hbalanced).trans hzero)
          (hbalanced.of_append hfront) hrest rfl
      refine ⟨attempt :: found, stop, congrArg (List.cons attempt) hattempts, ?_, ?_, ?_⟩
      · rw [List.append_assoc]
        exact htakes.append htakes'
      · rw [List.flatMap_cons, hextent, hfound, List.append_assoc]
      · exact List.forall_mem_cons.mpr ⟨hextent ▸ htaken, hextents⟩

end Semicolon

/-- What stands around a block that is in no other one, in a statement that ends with a
semicolon. -/
structure Surrounding where
  front : List Token
  opening : Token
  brace : Token
  remainder : List Token
  semicolon : Token
  balanced_front : Balanced front
  kind_opening : opening.kind = .openCurly
  kind_brace : brace.kind = .closeCurly
  balanced_remainder : Balanced remainder
  kind_semicolon : semicolon.kind = .semicolon

namespace Surrounding

variable (S : Surrounding) {inside : List Token}

/-- What stands after the block. -/
def ending : List Token := S.remainder ++ [S.semicolon]

/-- The statement up to some of what stands after the block, with `inside` in the block. -/
def around (inside skipped : List Token) : List Token :=
  S.front ++ S.opening :: (inside ++ S.brace :: skipped)

theorem encloses (h : Balanced inside) (skipped : List Token) :
    Encloses (S.around inside skipped) (S.front ++ [S.opening]) inside (S.brace :: skipped) :=
  ⟨by simp [around], by simp [S.kind_opening], by simp [S.kind_brace], h⟩

theorem balanced (h : Balanced inside) : Balanced (S.around inside S.remainder) := by
  have hbraced := (h.braced S.kind_opening S.kind_brace).append S.balanced_remainder
  simpa [around] using S.balanced_front.append hbraced

theorem around_ending (inside : List Token) :
    S.around inside S.ending = S.around inside S.remainder ++ [S.semicolon] := by
  simp [around, ending]

end Surrounding

/-- The attempt extends through the block and takes what is `skipped` after it, and the attempts
in `leftover` are made at what is left of the statement. -/
structure Attempt.Leaves (S : Surrounding) (inside skipped : List Token) (attempt : Attempt)
    (leftover : List Attempt) : Prop where
  extent_eq : attempt.extent = S.around inside skipped
  ending_eq : skipped ++ leftover.flatMap Attempt.extent = S.ending
  nothing_of_remainder : S.remainder = [] → leftover = []
  nothing_of_skipped : skipped = S.ending → leftover = []

/-- The attempts extend over the whole statement. -/
theorem Attempt.Leaves.extents_eq {S : Surrounding} {inside skipped : List Token}
    {attempt : Attempt} {leftover : List Attempt} (h : attempt.Leaves S inside skipped leftover) :
    (attempt :: leftover).flatMap Attempt.extent = S.around inside S.ending := by
  rw [List.flatMap_cons, h.extent_eq, ← h.ending_eq]
  simp [Surrounding.around]

section Block

variable {c : Cursor} {inside rest : List Token}

/-- An attempt that comes to a block extends at least to the brace that closes it, and to a
semicolon right after that. -/
theorem Attempt.extent_of_block (S : Surrounding) (hzero : c.openBraces = 0)
    (hinside : Balanced inside) (htail : c.tokens.tail = S.around inside S.ending ++ rest)
    (hpast : (ofCursor Table.standard.statement c.advance).stop.tokens.tail.length ≤
      (inside ++ S.brace :: S.ending ++ rest).length) :
    ∃ skipped more,
      (ofCursor Table.standard.statement c.advance).extent = S.around inside skipped ∧
      skipped ++ more = S.ending ∧ (S.remainder = [] → more = []) := by
  have htail' : c.tokens.tail = S.around inside S.remainder ++ S.semicolon :: rest := by
    rw [htail, S.around_ending]
    simp
  obtain ⟨taken, more, htakes, heq, hbalanced, hextent, -⟩ :=
    exists_takes_last hzero (S.balanced hinside) S.kind_semicolon htail'
  have hlength : S.front.length < taken.length := by
    have hlast := (ofCursor Table.standard.statement c.advance).reaches_last_of_stop
    have hle := hlast.length_tokens_le
    have hlengths := congrArg List.length (htakes.tail_eq.symm.trans htail)
    simp only [Surrounding.around, List.length_append, List.length_cons,
      List.length_tail] at hpast hlengths
    omega
  have hsplit : S.around inside S.ending = taken ++ more := by rw [S.around_ending, heq]
  obtain ⟨skipped, rfl, hskipped⟩ :=
    hbalanced.exists_of_block S.kind_opening hinside S.kind_brace hlength hsplit
  refine ⟨skipped, more, hextent, hskipped.symm, fun hnil => ?_⟩
  rw [Surrounding.ending, hnil, List.nil_append] at hskipped
  cases skipped with
  | cons token skipped =>
    obtain ⟨-, hrest⟩ := List.cons.inj hskipped
    exact (List.append_eq_nil_iff.mp hrest.symm).2
  | nil =>
    -- the attempt would end on the brace, right before the semicolon
    obtain rfl : [S.semicolon] = more := hskipped
    have hleft := htakes.tail_of_append htail' heq
    have hlast : c.Takes (S.front ++ S.opening :: inside ++ [S.brace])
        (ofCursor Table.standard.statement c.advance).last := by simpa using htakes
    have hpeek : (ofCursor Table.standard.statement c.advance).last.peek.kind = .semicolon := by
      simp [Cursor.peek, hleft, S.kind_semicolon]
    have hcurrent := current_last hpeek
    rw [Cursor.current, hlast.tokens_eq] at hcurrent
    simp [S.kind_brace] at hcurrent

/-- After an attempt that comes to a block, some more may be made at what is left of the
statement. -/
theorem exists_leaves (S : Surrounding) (hzero : c.openBraces = 0) (hinside : Balanced inside)
    (htail : c.tokens.tail = S.around inside S.ending ++ rest)
    (hpast : (Attempt.ofCursor Table.standard.statement c.advance).stop.tokens.tail.length ≤
      (inside ++ S.brace :: S.ending ++ rest).length) :
    ∃ leftover skipped stop, attempts Table.standard.statement c.advance =
        .ofCursor Table.standard.statement c.advance ::
          (leftover ++ attempts Table.standard.statement stop.advance) ∧
      c.Takes (S.around inside S.ending) stop ∧
      (Attempt.ofCursor Table.standard.statement c.advance).Leaves S inside skipped leftover := by
  have htail' : c.tokens.tail = S.around inside S.remainder ++ S.semicolon :: rest := by
    rw [htail, S.around_ending]
    simp
  obtain ⟨found, stop, hfound, htakes, hextents, hne⟩ :=
    exists_attempts_of_semicolon hzero (S.balanced hinside) S.kind_semicolon htail'
  rw [← S.around_ending] at htakes hextents
  obtain ⟨skipped, more, hextent, hending, hnone⟩ :=
    Attempt.extent_of_block S hzero hinside htail hpast
  cases found with
  | nil => simp [Surrounding.around] at hextents
  | cons attempt leftover =>
    obtain ⟨-, rfl, -⟩ := of_attempts_eq_cons hfound
    have hmore : leftover.flatMap Attempt.extent = more := by
      rw [List.flatMap_cons, hextent] at hextents
      refine List.append_cancel_left (hextents.trans ?_)
      simp [Surrounding.around, ← hending]
    have hleftover : more = [] → leftover = [] := by
      intro hnil
      rw [hnil] at hmore
      cases leftover with
      | nil => rfl
      | cons other others =>
        rw [List.flatMap_cons, List.append_eq_nil_iff] at hmore
        exact absurd hmore.1 (hne other (by simp))
    refine ⟨leftover, skipped, stop, hfound, htakes, hextent, by rw [hmore, hending],
      fun hnil => hleftover (hnone hnil), fun hall => hleftover ?_⟩
    rw [hall] at hending
    exact List.append_right_eq_self.mp hending

end Block

end LetScript
