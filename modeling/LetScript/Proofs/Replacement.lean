import LetScript.Proofs.Acceptance
import LetScript.Proofs.Exchange
import LetScript.Proofs.Extent
import LetScript.Proofs.Locality

/-!
# Replacing what stands in a block

Take tokens that are read as statements without a diagnostic, and in one statement, which ends with
a semicolon, replace what stands in a block by other balanced tokens. The statements before are
read as they were, since they end before the change, and so are those after it, since what is left
of the changed statement ends with the semicolon at the latest.

The changed statement is read whole or not at all. For if some of it is read up to a place after
the block, then what stands in the block now is a list of statements. So it may be exchanged for
what stood there, and the whole is a statement still.
-/

namespace LetScript

/-- If a statement in which a block is replaced is read at all, it is read to its end. -/
theorem Attempt.tokens_of_replaced {start start' : Cursor} {tree tree' : Stmt}
    {before inside inside' after found rest : List Token} (houtside : start.Outside)
    (hresult : (ofCursor Table.standard.statement start).result = .ok tree)
    (hblock : Encloses (ofCursor Table.standard.statement start).tokens before inside after)
    (hnext : (ofCursor Table.standard.statement start).next.tokens = rest)
    (hfollow : firstKind rest .eof ≠ .kwElse ∧ firstKind rest .eof ≠ .semicolon)
    (houtside' : start'.Outside) (htokens' : start'.tokens = before ++ inside' ++ after ++ rest)
    (hresult' : (ofCursor Table.standard.statement start').result = .ok tree')
    (hblock' : Encloses (ofCursor Table.standard.statement start').tokens before inside' found) :
    (ofCursor Table.standard.statement start').tokens = before ++ inside' ++ after := by
  obtain ⟨⟨nesting', -, hderives'⟩, htakes'⟩ := derives_of_result rfl houtside' hresult'
  obtain ⟨⟨nesting, -, hderives⟩, htakes⟩ := derives_of_result rfl houtside hresult
  obtain ⟨trees, depth, hinside'⟩ := hderives'.exchangeable.derives hblock'
  obtain ⟨whole, frames, hwhole⟩ := hderives.exchangeable.exchange hblock hinside'
  have htail : (Cursor.before start'.tokens start'.finish 0).tokens.tail =
      before ++ inside' ++ after ++ rest := htokens'
  obtain ⟨stop, htaken, hrest⟩ := Cursor.Takes.exists_of_tail_eq htail
  have hkind : (ofCursor Table.standard.statement start).stop.peek.kind = firstKind rest .eof := by
    rw [Cursor.peek_kind_eq_firstKind, ← hnext, next, last, hresult, Cursor.tokens_advance]
  have hpeek : stop.peek.kind = firstKind rest .eof := by
    rw [Cursor.peek_kind_eq_firstKind, hrest]
  rw [hkind] at hwhole
  have hgives := gives_statement hwhole htaken hpeek hfollow rfl
  rw [← houtside'.eq_advance] at hgives
  generalize hrun : Table.standard.statement.run start' = outcome at hgives
  have hattempt : ofCursor Table.standard.statement start' = ⟨start', outcome.1, outcome.2⟩ := by
    rw [ofCursor, hrun]
  rw [hattempt] at hresult' htakes' ⊢
  cases hgives with
  | good _ =>
    have htaken' := htakes'.tail_eq
    rw [hrest, htail] at htaken'
    exact (List.append_cancel_right htaken').symm
  | tooDeep _ _ => contradiction

section Replaced

variable (S : Surrounding) {inside inside' : List Token}

/-- The reading of a statement in which a block is replaced comes to this block. -/
theorem Attempt.length_stop_le {start start' : Cursor} {tree : Stmt} {rest : List Token}
    (hresult : (ofCursor Table.standard.statement start).result = .ok tree)
    (hnext : (ofCursor Table.standard.statement start).next.tokens = rest)
    (hshares : start.Shares (inside ++ S.brace :: S.ending ++ rest)
      (inside' ++ S.brace :: S.ending ++ rest) start') :
    (ofCursor Table.standard.statement start').stop.tokens.tail.length ≤
      (inside' ++ S.brace :: S.ending ++ rest).length := by
  have hrun : Table.standard.statement.run start =
      (.ok tree, (ofCursor Table.standard.statement start).stop) := Prod.ext hresult rfl
  refine hshares.length_tail_stop_le hrun ?_
  rw [next, last, hresult, Cursor.tokens_advance] at hnext
  rw [hnext]
  simp only [List.length_append, List.length_cons]
  omega

/-- When a block of a statement is replaced by another one, the statement is attempted at the same
place, some more attempts may be made at what comes after the block, and the attempts after the
statement are made as before. -/
theorem exists_leaves_of_replaced {start start' : Cursor} {tree : Stmt} {second : List Attempt}
    {rest : List Token} (houtside : start.Outside)
    (hresult : (Attempt.ofCursor Table.standard.statement start).result = .ok tree)
    (hattempts : attempts Table.standard.statement start =
      .ofCursor Table.standard.statement start :: second)
    (hparses : Attempt.diagnostics second = [])
    (htokens : (Attempt.ofCursor Table.standard.statement start).tokens =
      S.around inside S.ending)
    (hnext : (Attempt.ofCursor Table.standard.statement start).next.tokens = rest)
    (hinside : Balanced inside) (hinside' : Balanced inside')
    (hshares : start.Shares (inside ++ S.brace :: S.ending ++ rest)
      (inside' ++ S.brace :: S.ending ++ rest) start')
    (htokens' : start'.tokens = S.around inside' S.ending ++ rest) :
    ∃ leftover skipped, attempts Table.standard.statement start' =
        .ofCursor Table.standard.statement start' :: (leftover ++ second) ∧
      (Attempt.ofCursor Table.standard.statement start').Leaves S inside' skipped leftover ∧
      ∀ tree', (Attempt.ofCursor Table.standard.statement start').result = .ok tree' →
        leftover = [] := by
  have houtside' : start'.Outside := by
    rw [Cursor.Outside, hshares.openBraces, hshares.current]
    exact houtside
  obtain ⟨-, -, hafter⟩ := of_attempts_eq_cons hattempts
  have hpast := Attempt.length_stop_le S hresult hnext hshares
  have htail : (Cursor.before start'.tokens start'.finish 0).tokens.tail =
      S.around inside' S.ending ++ rest := htokens'
  rw [houtside'.eq_advance] at hpast
  obtain ⟨leftover, skipped, stop, hfound, htakes, hleaves⟩ :=
    exists_leaves S rfl hinside' htail hpast
  rw [← houtside'.eq_advance] at hfound hleaves
  have hsecond : attempts Table.standard.statement stop.advance = second := by
    have hlast : Balanced [S.semicolon] :=
      .single (by simp [S.kind_semicolon]) (by simp [S.kind_semicolon])
    have hwhole : Balanced (S.around inside' S.ending) := by
      rw [S.around_ending]
      exact (S.balanced hinside').append hlast
    have hclosed : stop.openBraces = 0 := htakes.openBraces_of_balanced hwhole
    have hleft : stop.advance.tokens = rest := by
      rw [Cursor.tokens_advance]
      exact List.append_cancel_left (htakes.tail_eq.symm.trans htail)
    have hfinish := (Attempt.reaches_last Table.standard.statement start).advance.finish_eq
    rw [← hafter]
    refine attempts_congr (Attempt.outside_next houtside) (fun _ => Cursor.outside_advance hclosed)
      (hleft.trans hnext.symm) ?_
    exact htakes.finish_eq.trans (hshares.finish.trans hfinish.symm)
  rw [hsecond] at hfound
  refine ⟨leftover, skipped, hfound, hleaves, fun tree' hresult' => ?_⟩
  have hfollow := firstKind_of_attempts (Attempt.outside_next houtside) (hafter ▸ hparses)
  rw [hnext] at hfollow
  have htaken : (Attempt.ofCursor Table.standard.statement start').tokens =
      S.around inside' skipped := by
    rw [← hleaves.extent_eq, Attempt.extent, Attempt.last, hresult', Attempt.tokens]
  have hwhole := Attempt.tokens_of_replaced houtside hresult (htokens ▸ S.encloses hinside S.ending)
    hnext hfollow houtside' (by simpa [Surrounding.around] using htokens') hresult'
    (htaken ▸ S.encloses hinside' skipped)
  rw [htaken] at hwhole
  exact hleaves.nothing_of_skipped (by simpa [Surrounding.around] using hwhole)

/-- When a block of a statement is replaced by another one, all other statements are read as
before. -/
theorem exists_attempts_of_replaced {c : Cursor} (houtside : c.Outside)
    (hparses : Attempt.diagnostics (attempts Table.standard.statement c) = [])
    {first second : List Attempt} {attempt : Attempt}
    (hattempts : attempts Table.standard.statement c = first ++ attempt :: second)
    (htokens : attempt.tokens = S.around inside S.ending)
    (hinside : Balanced inside) (hinside' : Balanced inside') :
    ∃ first' broken leftover skipped,
      attempts Table.standard.statement (.ofTokens (first.flatMap Attempt.tokens ++
        S.around inside' S.ending ++ second.flatMap Attempt.tokens) c.finish) =
          first' ++ broken :: (leftover ++ second) ∧
      Attempt.diagnostics first' = [] ∧
      (Attempt.program first').statements = (Attempt.program first).statements ∧
      broken.Leaves S inside' skipped leftover ∧
      ∀ tree, broken.result = .ok tree → leftover = [] := by
  obtain ⟨hfirst, ⟨tree, hresult⟩, hsecond⟩ :=
    Attempt.succeeds_of_diagnostics_eq_nil (hattempts ▸ hparses)
  obtain ⟨hstart, hattempt, hleft, hwhole⟩ := split_of_attempts houtside hparses hattempts
  obtain ⟨-, hfrom⟩ := of_attempts_eq_append hattempts
  generalize attempt.start = start at hstart hattempt hleft hwhole hfrom
  subst hattempt
  have hnext : (Attempt.ofCursor Table.standard.statement start).next.tokens =
      second.flatMap Attempt.tokens :=
    List.append_cancel_left ((Attempt.tokens_start_eq hstart hresult).symm.trans hleft)
  generalize second.flatMap Attempt.tokens = rest at hleft hnext ⊢
  let left := inside ++ S.brace :: S.ending ++ rest
  let right := inside' ++ S.brace :: S.ending ++ rest
  replace hleft : start.tokens = S.front ++ [S.opening] ++ left := by
    rw [hleft, htokens]
    simp [left, Surrounding.around]
  have hfew : left.length < start.tokens.tail.length := by
    cases hfront : S.front with
    | nil =>
      rw [Surrounding.around, hfront, List.nil_append] at htokens
      exact absurd S.kind_opening (Attempt.kind_ne_openCurly hstart hresult htokens)
    | cons token front =>
      rw [hleft, hfront]
      simp
      omega
  have hnear : c.Shares left right
      (.ofTokens (first.flatMap Attempt.tokens ++ (S.front ++ [S.opening]) ++ right) c.finish) := by
    have hc : c = .ofTokens c.tokens c.finish := houtside.eq_advance
    rw [hwhole, hleft, ← List.append_assoc] at hc
    have hne : first.flatMap Attempt.tokens ++ (S.front ++ [S.opening]) ≠ [] := by simp
    have hshares := Cursor.Shares.ofTokens hne left right c.finish
    rwa [← hc] at hshares
  obtain ⟨first', start', hattempts', hshares, hdiagnostics, hstatements⟩ :=
    (Simulation.sharing left right).attempts_eq hnear hattempts hfirst (Nat.not_le_of_lt hfew)
  have hleft' : start'.tokens = S.front ++ [S.opening] ++ right := hshares.tokens_eq hleft hfew
  obtain ⟨leftover, skipped, hrest, hleaves⟩ :=
    exists_leaves_of_replaced S hstart hresult hfrom hsecond htokens hnext hinside hinside' hshares
      (by simpa [right, Surrounding.around] using hleft')
  refine ⟨first', .ofCursor Table.standard.statement start', leftover, skipped, ?_, hdiagnostics,
    ?_, hleaves⟩
  · rw [← hrest, ← hattempts']
    simp [right, Surrounding.around]
  · have hid : Stmt.relocate .id = id := funext Stmt.relocate_id
    rw [hstatements]
    exact (congrArg (List.map · _) hid).trans (List.map_id _)

end Replaced

end LetScript
