import LetScript.Proofs.Layout
import LetScript.Proofs.Replacement

/-!
# A broken block breaks one statement

Take a source without errors whose statements all end with a semicolon, and replace what stands
between the braces of one of its blocks by other balanced tokens. If there are errors then, the
statement that the block is part of breaks, and no other one: the statements before and after are
what they were. The broken statement is skipped at least through the brace that closes the
outermost block around the change.

Hence if only the semicolon comes after that brace, there is one diagnostic, and one statement is
missing. If more of the statement comes there, it is read as if it were a statement of its own,
since reading goes on right after a block in which a statement breaks.
-/

namespace LetScript

/-- What is left from the brace on that closes the outermost of the blocks open after `before`. -/
def outermostClosing (before rest : List Token) : Option (List Token) :=
  (braceDepth? 0 before).bind fun depth => closingFrom depth rest

/-- Around a block of a statement that ends with a semicolon there is an outermost one. It is
balanced whatever balanced tokens stand in the inner one. -/
theorem Encloses.exists_surrounding {tokens before inside after init : List Token}
    {semicolon : Token} (h : Encloses tokens before inside after) (hbalanced : Balanced tokens)
    (htokens : tokens = init ++ [semicolon]) (hsemicolon : semicolon.kind = .semicolon) :
    ∃ (S : Surrounding) (left right : List Token),
      outermostClosing before after = some (S.brace :: S.ending) ∧
      ∀ inside', Balanced inside' → Balanced (left ++ (inside' ++ right)) ∧
        before ++ inside' ++ after = S.around (left ++ (inside' ++ right)) S.ending := by
  obtain ⟨depth, hbefore, hafter⟩ := h.exists_depth hbalanced
  obtain ⟨front, opening, left, rfl, hfront, hopening, hleft⟩ :=
    exists_opening_of_braceDepth? hbefore
  obtain ⟨brace, rest, hclosing, hrest⟩ := exists_closingFrom hafter
  obtain ⟨right, rfl, hbrace, hright⟩ := closingFrom_eq_some_iff.mp hclosing
  have hend := h.tokens_eq.symm.trans htokens
  rw [← List.append_assoc] at hend
  rcases List.eq_nil_or_concat rest with rfl | ⟨remainder, last, rfl⟩
  · obtain ⟨-, hlast⟩ := List.append_inj' hend rfl
    rw [← List.singleton_inj.mp hlast, hbrace] at hsemicolon
    contradiction
  · rw [List.concat_eq_append, ← List.cons_append, ← List.append_assoc] at hend
    obtain ⟨-, hlast⟩ := List.append_inj' hend rfl
    obtain rfl := List.singleton_inj.mp hlast
    rw [List.concat_eq_append] at hrest hclosing ⊢
    have hremainder := hrest.of_concat (by simp [hsemicolon]) (by simp [hsemicolon])
    refine ⟨⟨front, opening, brace, remainder, last, hfront, hopening, hbrace, hremainder,
      hsemicolon⟩, left, right, ?_, fun inside' hinside' => ⟨?_, ?_⟩⟩
    · rw [outermostClosing, hbefore]
      exact hclosing
    · rw [balanced_iff, braceDepth?_append, hleft, Option.bind_some, braceDepth?_append,
        hinside'.braceDepth?_eq, Option.bind_some, hright]
    · simp [Surrounding.around, Surrounding.ending]

/-- The attempts are like `first` and `second` but for some in between, to which the tokens
`changed` belong. The first of these fails, and the others are made at the last tokens of
`rest`. -/
inductive ChangedBetween (first second : List Attempt) (changed rest : List Token) :
    List Attempt → Prop where
  | intro {first' leftover second' : List Attempt} {broken : Attempt} {diagnostic : Diagnostic}
      {kept : List Token} :
      SameStatements first' first → SameStatements second' second →
        broken.result = .error diagnostic →
          SameTokens ((broken :: leftover).flatMap Attempt.extent) changed →
            SameTokens (leftover.flatMap Attempt.extent) kept → kept <:+ rest →
              ChangedBetween first second changed rest (first' ++ broken :: (leftover ++ second'))

/-- Where all attempts but one succeed, that one gives the only diagnostic. -/
theorem SameAttempts.exists_diagnostic {found first first' second : List Attempt}
    {broken : Attempt} {diagnostic : Diagnostic}
    (h : SameAttempts found (first' ++ broken :: second)) (hfirst : SameStatements first' first)
    (hsecond : Attempt.diagnostics second = []) (hbroken : broken.result = .error diagnostic) :
    (∃ diagnostic, Attempt.diagnostics found = [diagnostic]) ∧
      (Attempt.program found).statements.map (Stmt.relocate .erase) =
        (Attempt.program (first ++ second)).statements.map (Stmt.relocate .erase) := by
  obtain ⟨start, result, stop⟩ := broken
  obtain rfl : result = .error diagnostic := hbroken
  have hdiagnostics := h.diagnostics
  have hstatements := h.statements
  rw [Attempt.diagnostics_append, hfirst.diagnostics, List.nil_append,
    Attempt.diagnostics_cons_error, hsecond] at hdiagnostics
  rw [Attempt.statements_program_append, List.map_append, hfirst.statements,
    Attempt.statements_program_cons_error] at hstatements
  have hlength := congrArg List.length hdiagnostics
  rw [List.length_map, List.length_map] at hlength
  refine ⟨List.length_eq_one_iff.mp hlength, ?_⟩
  rw [hstatements, Attempt.statements_program_append, List.map_append]

/-- Where all attempts succeed but one and those after it that are made when it fails, it fails if
any of them do. -/
theorem SameAttempts.exists_failure {found first leftover second : List Attempt}
    {broken : Attempt} (h : SameAttempts found (first ++ (broken :: leftover ++ second)))
    (hfirst : Attempt.diagnostics first = []) (hsecond : Attempt.diagnostics second = [])
    (hread : ∀ tree, broken.result = .ok tree → leftover = [])
    (hfound : Attempt.diagnostics found ≠ []) :
    ∃ diagnostic, broken.result = .error diagnostic := by
  obtain ⟨start, result, stop⟩ := broken
  cases result with
  | error diagnostic => exact ⟨diagnostic, rfl⟩
  | ok tree =>
    obtain rfl := hread tree rfl
    have hdiagnostics := h.diagnostics
    rw [Attempt.diagnostics_append, hfirst, List.nil_append, List.cons_append, List.nil_append,
      Attempt.diagnostics_cons_ok, hsecond, List.map_nil, List.map_eq_nil_iff] at hdiagnostics
    exact absurd hdiagnostics hfound

/-- Where an attempt fails, the same attempt at another place does. -/
theorem SameAttempts.fails {attempt attempt' : Attempt} {diagnostic : Diagnostic}
    (h : SameAttempts [attempt'] [attempt]) (hfails : attempt.result = .error diagnostic) :
    ∃ diagnostic', attempt'.result = .error diagnostic' := by
  obtain ⟨start, result, stop⟩ := attempt
  obtain ⟨start', result', stop'⟩ := attempt'
  obtain rfl : result = .error diagnostic := hfails
  have hdiagnostics := h.diagnostics
  cases result' with
  | ok tree =>
    rw [Attempt.diagnostics_cons_ok, Attempt.diagnostics_cons_error] at hdiagnostics
    contradiction
  | error diagnostic' => exact ⟨diagnostic', rfl⟩

/-- When what stands in a block is replaced in a source of which all statements are read and end
with a semicolon, the statements before and after are read as before, and the other attempts are
made at the changed statement. The first of these fails, and all others are made at what comes
after the outermost block around the change. If nothing but the semicolon does, the new source has
exactly one diagnostic, and the program is the same without this statement. -/
theorem parse_of_replaced_block {source source' : String} {file file' : Option String}
    {first second : List Attempt} {attempt : Attempt} {before inside inside' after : List Token}
    (hparses : (parse source file).2 = [])
    (hended : ∀ attempt ∈ sourceAttempts source file, attempt.stop.current.kind = .semicolon)
    (hattempts : sourceAttempts source file = first ++ attempt :: second)
    (hblock : Encloses attempt.tokens before inside after) (hinside' : Balanced inside')
    (hcontent : SameTokens (Lexer.ofString source' file').content
      (first.flatMap Attempt.tokens ++ (before ++ inside' ++ after) ++
        second.flatMap Attempt.tokens))
    (hbroken : (parse source' file').2 ≠ []) :
    ∃ brace rest, outermostClosing before after = some (brace :: rest) ∧
      ChangedBetween first second (before ++ inside' ++ after) rest
        (sourceAttempts source' file') ∧
      ∀ semicolon, rest = [semicolon] →
        (∃ diagnostic, (parse source' file').2 = [diagnostic]) ∧
          (parse source' file').1.statements.map (Stmt.relocate .erase) =
            (Attempt.program (first ++ second)).statements.map (Stmt.relocate .erase) := by
  replace hparses : Attempt.diagnostics (sourceAttempts source file) = [] := hparses
  have houtside := Cursor.outside_ofString source file
  obtain ⟨-, ⟨tree, hresult⟩, hsecond⟩ :=
    Attempt.succeeds_of_diagnostics_eq_nil (hattempts ▸ hparses)
  obtain ⟨hstart, hattempt, -, -⟩ := split_of_attempts houtside hparses hattempts
  obtain ⟨⟨nesting, -, hderives⟩, -⟩ := Attempt.derives_of_result hattempt hstart hresult
  obtain ⟨init, hinit⟩ := Attempt.exists_tokens_eq hattempt hstart hresult
  have hsemicolon := hended attempt (by simp [hattempts])
  obtain ⟨S, left, right, hclosing, hbalanced⟩ :=
    hblock.exists_surrounding hderives.balanced hinit hsemicolon
  obtain ⟨hinner, hold⟩ := hbalanced inside hblock.balanced
  obtain ⟨hinner', hnew⟩ := hbalanced inside' hinside'
  obtain ⟨first', broken, leftover, skipped, hattempts', hfirst, hstatements, hleaves, hread⟩ :=
    exists_attempts_of_replaced S houtside hparses hattempts (hblock.tokens_eq.trans hold) hinner
      hinner'
  rw [hnew] at hcontent ⊢
  have hsame : SameAttempts (sourceAttempts source' file')
      (first' ++ (broken :: leftover ++ second)) := by
    rw [List.cons_append, ← hattempts']
    exact attempts_of_sameTokens hcontent _ _
  obtain ⟨diagnostic, hfails⟩ := hsame.exists_failure hfirst hsecond hread hbroken
  have hunchanged : SameStatements first' first := ⟨hfirst, congrArg _ hstatements⟩
  refine ⟨S.brace, S.ending, hclosing, ?_, ?_⟩
  · obtain ⟨first₁, others, heq, hfirst₁, hothers⟩ := hsame.exists_append
    obtain ⟨changed, second₁, rfl, hchanged₁, hsecond₁⟩ := hothers.exists_append
    obtain ⟨broken₁, leftover₁, rfl, hbroken₁, hleftover₁⟩ := hchanged₁.exists_cons
    obtain ⟨diagnostic₁, hfails₁⟩ := hbroken₁.fails hfails
    rw [heq, List.cons_append]
    refine .intro (hfirst₁.sameStatements hunchanged) (hsecond₁.sameStatements ⟨hsecond, rfl⟩)
      hfails₁ ?_ hleftover₁.extents ⟨skipped, hleaves.ending_eq⟩
    rw [← hleaves.extents_eq]
    exact hchanged₁.extents
  · intro semicolon hrest
    have hremainder : S.remainder = [] :=
      (List.append_inj' (hrest.trans (List.nil_append _).symm) rfl).1
    obtain rfl := hleaves.nothing_of_remainder hremainder
    exact hsame.exists_diagnostic hunchanged hsecond hfails

/-- A binding that is not finished breaks the conditional in which it stands, and nothing else. -/
theorem parse_of_unfinished_binding :
    ∃ first attempt second before inside after,
      sourceAttempts "a; if (x) { 1 }; b;" none = first ++ attempt :: second ∧
      Encloses attempt.tokens before inside after ∧
      (∃ diagnostic, (parse "a; if (x) { let }; b;" none).2 = [diagnostic]) ∧
      (parse "a; if (x) { let }; b;" none).1.statements.map (Stmt.relocate .erase) =
        (Attempt.program (first ++ second)).statements.map (Stmt.relocate .erase) := by
  let a := Attempt.ofCursor Table.standard.statement (.ofString "a; if (x) { 1 }; b;" none)
  let conditional := Attempt.ofCursor Table.standard.statement a.next
  let b := Attempt.ofCursor Table.standard.statement conditional.next
  let before := conditional.tokens.take 5
  let inside := (conditional.tokens.drop 5).take 1
  let after := conditional.tokens.drop 6
  let inside' := ((Lexer.ofString "a; if (x) { let }; b;" none).content.drop 7).take 1
  have hattempts : sourceAttempts "a; if (x) { 1 }; b;" none = [a] ++ conditional :: [b] := by
    rw [sourceAttempts, attempts_of_tokens_ne_nil (by decide +kernel),
      attempts_of_tokens_ne_nil (by decide +kernel), attempts_of_tokens_ne_nil (by decide +kernel),
      attempts_of_tokens_eq_nil (by decide +kernel)]
    rfl
  have hended : ∀ attempt ∈ sourceAttempts "a; if (x) { 1 }; b;" none,
      attempt.stop.current.kind = .semicolon := by
    rw [hattempts]
    simp only [List.cons_append, List.nil_append, List.forall_mem_cons]
    exact ⟨by decide +kernel, by decide +kernel, by decide +kernel, by simp⟩
  have hblock : Encloses conditional.tokens before inside after :=
    ⟨by decide +kernel, by decide +kernel, by decide +kernel, balanced_iff.mpr (by decide +kernel)⟩
  have hinside' : Balanced inside' := balanced_iff.mpr (by decide +kernel)
  have hcontent : SameTokens (Lexer.ofString "a; if (x) { let }; b;" none).content
      ([a].flatMap Attempt.tokens ++ (before ++ inside' ++ after) ++
        [b].flatMap Attempt.tokens) := by decide +kernel
  have hbroken : (parse "a; if (x) { let }; b;" none).2 ≠ [] := by decide +kernel
  obtain ⟨brace, rest, hclosing, -, hone⟩ :=
    parse_of_replaced_block (by decide +kernel) hended hattempts hblock hinside' hcontent hbroken
  have hlength : (outermostClosing before after).map List.length = some 2 := by decide +kernel
  rw [hclosing] at hlength
  obtain ⟨semicolon, rfl⟩ := List.length_eq_one_iff.mp (by simpa using hlength : rest.length = 1)
  obtain ⟨hdiagnostics, hstatements⟩ := hone semicolon rfl
  exact ⟨[a], conditional, [b], before, inside, after, hattempts, hblock, hdiagnostics, hstatements⟩

/-- A binding that is not finished breaks the call in whose argument it stands, and what comes after
the block is refused as a statement of its own. -/
theorem diagnostics_of_broken_argument :
    ∃ first attempt second before inside inside' after,
      (parse "f(fn() { 1 }, 2); g;" none).2 = [] ∧
      (∀ attempt ∈ sourceAttempts "f(fn() { 1 }, 2); g;" none,
        attempt.stop.current.kind = .semicolon) ∧
      sourceAttempts "f(fn() { 1 }, 2); g;" none = first ++ attempt :: second ∧
      Encloses attempt.tokens before inside after ∧ Balanced inside' ∧
      SameTokens (Lexer.ofString "f(fn() { let = 1 }, 2); g;" none).content
        (first.flatMap Attempt.tokens ++ (before ++ inside' ++ after) ++
          second.flatMap Attempt.tokens) ∧
      (parse "f(fn() { let = 1 }, 2); g;" none).2 ≠ [] ∧
      ¬ ∃ diagnostic, (parse "f(fn() { let = 1 }, 2); g;" none).2 = [diagnostic] := by
  let f := Attempt.ofCursor Table.standard.statement (.ofString "f(fn() { 1 }, 2); g;" none)
  let g := Attempt.ofCursor Table.standard.statement f.next
  have hattempts : sourceAttempts "f(fn() { 1 }, 2); g;" none = [] ++ f :: [g] := by
    rw [sourceAttempts, attempts_of_tokens_ne_nil (by decide +kernel),
      attempts_of_tokens_ne_nil (by decide +kernel), attempts_of_tokens_eq_nil (by decide +kernel)]
    rfl
  refine ⟨[], f, [g], f.tokens.take 6, (f.tokens.drop 6).take 1,
    ((Lexer.ofString "f(fn() { let = 1 }, 2); g;" none).content.drop 6).take 3, f.tokens.drop 7,
    by decide +kernel, ?_, hattempts, ?_, balanced_iff.mpr (by decide +kernel), by decide +kernel,
    by decide +kernel, ?_⟩
  · rw [hattempts]
    simp only [List.nil_append, List.forall_mem_cons]
    exact ⟨by decide +kernel, by decide +kernel, by simp⟩
  · exact ⟨by decide +kernel, by decide +kernel, by decide +kernel,
      balanced_iff.mpr (by decide +kernel)⟩
  · rintro ⟨diagnostic, hone⟩
    have htwo : (parse "f(fn() { let = 1 }, 2); g;" none).2.length = 2 := by decide +kernel
    rw [hone] at htwo
    simp at htwo

end LetScript
