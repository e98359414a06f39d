import LetScript.Proofs.Attempts
import LetScript.Proofs.Simulation
import LetScript.Proofs.Skipping

/-!
# Where tokens stand in a source

Two sources whose tokens have the same kinds and texts are read alike, however they are laid out:
the statements are the same, the diagnostics are the same, and only the places recorded in them
differ, as those of the tokens do.
-/

namespace LetScript

/-- What the runs on a source and on the same source laid out in another way have in common. -/
def Simulation.relocating (g : Relocation) : Simulation where
  relocation := g
  near c c' := c' = c.relocate g
  lost _ := False
  blind _ := False
  turns failure failure' := failure' = (failure.1.relocate g, failure.2.relocate g)
  lost_advance := id
  lost_of_blind := False.elim
  kind_of_blind := Cursor.kind_of_false
  current h := by rw [h, Cursor.current_relocate]
  openBraces h := by rw [h, Cursor.openBraces_relocate]
  peek h _ _ := by rw [h, Cursor.peek_relocate]
  advance h _ _ := by rw [h, Cursor.advance_relocate]
  tokens_eq_nil h _ := by rw [h, Cursor.tokens_relocate_eq_nil]
  fails _ h := by rw [h]

/-- The attempt to read the same tokens at other places. -/
def Attempt.relocate (g : Relocation) (attempt : Attempt) : Attempt where
  start := attempt.start.relocate g
  result :=
    match attempt.result with
    | .ok tree => .ok (tree.relocate g)
    | .error diagnostic => .error (diagnostic.relocate g)
  stop := attempt.stop.relocate g

section

variable (g : Relocation)

namespace Cursor

theorem ofTokens_relocate (tokens : List Token) (finish : Position) :
    (ofTokens tokens finish).relocate g =
      ofTokens (tokens.map (Token.relocate g)) (g.position finish) := by
  cases tokens <;> rfl

/-- The same tokens of a broken statement are skipped. -/
theorem skipBroken_relocate (inside : Bool) (c : Cursor) :
    (c.relocate g).skipBroken inside = (c.skipBroken inside).relocate g := by
  have hcurrent {c : Cursor} {token : Token} {rest : List Token}
      (htokens : c.tokens = token :: rest) : (c.relocate g).current.kind = token.kind := by
    rw [current_relocate, Token.kind_relocate, current, htokens]
    rfl
  have hpeek (c : Cursor) : (c.relocate g).peek.kind = c.peek.kind := by
    rw [peek_relocate, Token.kind_relocate]
  fun_induction skipBroken inside c with
  | case1 c htokens => exact skipBroken_of_tokens_eq_nil (by rw [relocate, htokens]; rfl) inside
  | case2 c token rest htokens h =>
    exact skipBroken_of_semicolon (c := c.relocate g) h.1 ((hcurrent htokens).trans h.2) inside
  | case3 c token rest htokens _ h hsemicolon =>
    obtain ⟨hzero, rfl, hclose⟩ := h
    rw [skipBroken_of_closeCurly (c := c.relocate g) hzero ((hcurrent htokens).trans hclose),
      if_pos ((hpeek c).trans hsemicolon), advance_relocate]
  | case4 c token rest htokens _ h hsemicolon =>
    obtain ⟨hzero, rfl, hclose⟩ := h
    rw [skipBroken_of_closeCurly (c := c.relocate g) hzero ((hcurrent htokens).trans hclose),
      if_neg (by rwa [hpeek])]
  | case5 c token rest htokens hsemicolon hclose _ ih =>
    have hleft : (c.relocate g).tokens ≠ [] := by
      rw [Ne, tokens_relocate_eq_nil, htokens]
      exact List.cons_ne_nil _ _
    rw [skipBroken_of_not hleft (by rwa [hcurrent htokens]) (by rwa [hcurrent htokens]),
      advance_relocate, ih]

end Cursor

/-- A statement is read as the same at other places. -/
theorem Attempt.ofCursor_relocate (c : Cursor) :
    ofCursor Table.standard.statement (c.relocate g) =
      (ofCursor Table.standard.statement c).relocate g := by
  have hends := Table.follows_statement (.relocating g) c (c.relocate g) rfl trivial
  rw [ofCursor, ofCursor]
  generalize Table.standard.statement.run c = outcome at hends
  generalize Table.standard.statement.run (c.relocate g) = outcome' at hends
  cases hends with
  | ok tree hstop _ =>
    rw [hstop]
    rfl
  | error hturns =>
    obtain ⟨hdiagnostic, hstop⟩ := Prod.mk.inj hturns
    rw [hdiagnostic, hstop]
    rfl
  | lost hlost => exact hlost.elim

/-- It ends at the same token. -/
theorem Attempt.last_relocate (attempt : Attempt) :
    (attempt.relocate g).last = attempt.last.relocate g := by
  obtain ⟨start, result, stop⟩ := attempt
  cases result with
  | ok tree => rfl
  | error diagnostic => exact Cursor.skipBroken_relocate g _ stop

/-- The next attempt is made at the same token. -/
theorem Attempt.next_relocate (attempt : Attempt) :
    (attempt.relocate g).next = attempt.next.relocate g := by
  rw [next, next, last_relocate, Cursor.advance_relocate]

/-- The same tokens belong to it. -/
theorem Attempt.extent_relocate (attempt : Attempt) :
    (attempt.relocate g).extent = attempt.extent.map (Token.relocate g) := by
  rw [extent, extent, last_relocate, Cursor.through, Cursor.through]
  simp [relocate, Cursor.relocate]

/-- The same attempts are made, at other places. -/
theorem attempts_relocate (c : Cursor) :
    attempts Table.standard.statement (c.relocate g) =
      (attempts Table.standard.statement c).map (Attempt.relocate g) := by
  fun_induction attempts Table.standard.statement c with
  | case1 c hnil =>
    rw [attempts_of_tokens_eq_nil ((Cursor.tokens_relocate_eq_nil g c).mpr hnil), List.map_nil]
  | case2 c hleft _ ih =>
    rw [attempts_of_tokens_ne_nil (mt (Cursor.tokens_relocate_eq_nil g c).mp hleft),
      Attempt.ofCursor_relocate, Attempt.next_relocate, ih, List.map_cons]

namespace Attempt

theorem statement?_relocate (attempt : Attempt) :
    (attempt.relocate g).statement? = attempt.statement?.map (Stmt.relocate g) := by
  obtain ⟨start, result, stop⟩ := attempt
  cases result <;> rfl

theorem diagnostic?_relocate (attempt : Attempt) :
    (attempt.relocate g).diagnostic? = attempt.diagnostic?.map (Diagnostic.relocate g) := by
  obtain ⟨start, result, stop⟩ := attempt
  cases result <;> rfl

theorem statements_program_relocate (found : List Attempt) :
    (program (found.map (relocate g))).statements =
      (program found).statements.map (Stmt.relocate g) := by
  simp only [program, List.filterMap_map, List.map_filterMap, Function.comp_def,
    statement?_relocate]

theorem diagnostics_relocate (found : List Attempt) :
    diagnostics (found.map (relocate g)) = (diagnostics found).map (Diagnostic.relocate g) := by
  simp only [diagnostics, List.filterMap_map, List.map_filterMap, Function.comp_def,
    diagnostic?_relocate]

end Attempt

end

/-- The tokens have the same kinds and texts, wherever they stand. -/
def SameTokens (tokens tokens' : List Token) : Prop :=
  tokens.map (Token.relocate .erase) = tokens'.map (Token.relocate .erase)

instance (tokens tokens' : List Token) : Decidable (SameTokens tokens tokens') :=
  inferInstanceAs (Decidable (_ = _))

/-- All of the attempts succeed, and they read the same statements, wherever these stand. -/
structure SameStatements (found found' : List Attempt) : Prop where
  diagnostics : Attempt.diagnostics found = []
  statements : (Attempt.program found).statements.map (Stmt.relocate .erase) =
    (Attempt.program found').statements.map (Stmt.relocate .erase)

/-- The attempts are the same but for where everything stands. -/
def SameAttempts (found found' : List Attempt) : Prop :=
  found.map (Attempt.relocate .erase) = found'.map (Attempt.relocate .erase)

namespace SameAttempts

variable {found found' : List Attempt}

theorem diagnostics (h : SameAttempts found found') :
    (Attempt.diagnostics found).map (Diagnostic.relocate .erase) =
      (Attempt.diagnostics found').map (Diagnostic.relocate .erase) := by
  rw [← Attempt.diagnostics_relocate, ← Attempt.diagnostics_relocate, h]

theorem statements (h : SameAttempts found found') :
    (Attempt.program found).statements.map (Stmt.relocate .erase) =
      (Attempt.program found').statements.map (Stmt.relocate .erase) := by
  rw [← Attempt.statements_program_relocate, ← Attempt.statements_program_relocate, h]

theorem sameStatements {other : List Attempt} (h : SameAttempts found found')
    (hother : SameStatements found' other) : SameStatements found other := by
  refine ⟨?_, h.statements.trans hother.statements⟩
  have hdiagnostics := h.diagnostics
  rw [hother.diagnostics] at hdiagnostics
  exact List.map_eq_nil_iff.mp hdiagnostics

/-- The same tokens belong to them. -/
theorem extents (h : SameAttempts found found') :
    SameTokens (found.flatMap Attempt.extent) (found'.flatMap Attempt.extent) := by
  have hextents (found : List Attempt) :
      (found.flatMap Attempt.extent).map (Token.relocate .erase) =
        (found.map (Attempt.relocate .erase)).flatMap Attempt.extent := by
    simp only [List.map_flatMap, List.flatMap_map, Attempt.extent_relocate]
  rw [SameTokens, hextents, hextents, h]

/-- Where one list of attempts is split, so is the other. -/
theorem exists_append {first second : List Attempt} (h : SameAttempts found (first ++ second)) :
    ∃ first' second', found = first' ++ second' ∧ SameAttempts first' first ∧
      SameAttempts second' second := by
  rw [SameAttempts, List.map_append] at h
  exact List.map_eq_append_iff.mp h

/-- Where there is an attempt in one list, there is one in the other. -/
theorem exists_cons {attempt : Attempt} {rest : List Attempt}
    (h : SameAttempts found (attempt :: rest)) :
    ∃ attempt' rest', found = attempt' :: rest' ∧ SameAttempts [attempt'] [attempt] ∧
      SameAttempts rest' rest := by
  obtain ⟨attempt', rest', hfound, hattempt, hrest⟩ := List.map_eq_cons_iff.mp h
  exact ⟨attempt', rest', hfound, congrArg (List.cons · []) hattempt, hrest⟩

end SameAttempts

/-- The same tokens are read as the same attempts, but for where everything stands. -/
theorem attempts_of_sameTokens {tokens tokens' : List Token} (h : SameTokens tokens tokens')
    (finish finish' : Position) :
    SameAttempts (attempts Table.standard.statement (.ofTokens tokens finish))
      (attempts Table.standard.statement (.ofTokens tokens' finish')) := by
  rw [SameAttempts, ← attempts_relocate, ← attempts_relocate, Cursor.ofTokens_relocate,
    Cursor.ofTokens_relocate, h]
  rfl

end LetScript
