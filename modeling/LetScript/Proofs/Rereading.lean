import LetScript.Proofs.Acceptance
import LetScript.Proofs.Printing
import LetScript.Proofs.Segments
import LetScript.Tree.Equality

/-!
# Reading a printed program

The statements of a printed program follow each other without separator. A binding and a return
keep their semicolon, which ends them wherever they stand. An expression on its own is printed
without one and may only be the last statement, since the next one could go on with it.

Under this condition a printed program is read as the same statements again, but for those that
need more frames than may be open. Such a statement is refused for the depth of its nesting, and
what is skipped with it is exactly its own text: no brace is printed, so the first semicolon ends
the skipping, and the only semicolon of a printed statement is its last token.
-/

namespace LetScript

namespace Stmt

/-- Whether the statement is an expression on its own. -/
def isExpression : Stmt → Bool
  | .expression _ _ => true
  | _ => false

/-- The statement with the token of its expression for that of an expression on its own. -/
def withoutToken : Stmt → Stmt
  | .expression _ value => .expression value.token value
  | tree => tree

/-- The statement wherever it stands, without the token of an expression on its own. -/
def bare (tree : Stmt) : Stmt := (tree.relocate .erase).withoutToken

/-- What reading the printed statement gives. -/
def outcome (tree : Stmt) : Except Cause Stmt :=
  if tree.need ≤ nestingLimit then .ok tree.bare else .error (.nestingTooDeep nestingLimit)

/-- The printed statement is read as the tokens, which it is derived from but for the token of an
expression on its own. -/
structure PrintsAs (tree : Stmt) (front ending : List Token) : Prop where
  plain : ∀ token ∈ front, token.kind.Plain
  ends : (∃ semicolon, ending = [semicolon] ∧ semicolon.kind = .semicolon) ∨
    ending = [] ∧ tree.isExpression = true
  exists_derives {next : Kind} : (ending = [] → next = .eof) → ∃ tree', tree'.bare = tree.bare ∧
    Derives (.stmt false next tree') (front ++ ending) tree.need
  readsAs {bytes : List UInt8} {rest : List Token} : (ending = [] → bytes = []) →
    ReadsAs bytes rest → ReadsAs (Utf8.encode tree.text ++ bytes) (front ++ ending ++ rest)

/-- A semicolon ends what is before it. -/
theorem readsAs_semicolon {bytes : List UInt8} {rest : List Token} (h : ReadsAs bytes rest) :
    ReadsAs (Utf8.encode ";" ++ bytes) (.ofKind .semicolon :: rest) :=
  h.ofKind rfl fun _ _ => rfl

/-- Statements without conditionals and functions are printed as source. -/
theorem Printable.exists_printsAs {tree : Stmt} (h : tree.Printable) :
    ∃ front ending, tree.PrintsAs front ending := by
  have hspace (bytes : List UInt8) : Delimited (Utf8.encode " " ++ bytes) := .cons (by decide) bytes
  have hsemicolon (bytes : List UInt8) : Delimited (Utf8.encode ";" ++ bytes) :=
    .cons (by decide) bytes
  cases h with
  | @binding kw name value hkw hspelled hname hspelledName hvalue =>
    obtain ⟨tokens, nesting, hprints⟩ := hvalue.exists_printsAs
    refine ⟨kw :: name :: .ofKind .assignment :: tokens, [.ofKind .semicolon], ?_,
      .inl ⟨_, rfl, rfl⟩, fun _ => ⟨_, rfl, ?_⟩, fun _ hrest => ?_⟩
    · simp only [List.forall_mem_cons]
      exact ⟨by simp [hkw], by simp [hname], by simp [Token.ofKind], hprints.plain⟩
    · rw [show Stmt.need (.binding kw (.ofToken name) value) = value.need from rfl, hprints.need_eq]
      exact .binding hkw hname rfl (hprints.derives.weaken (by decide)) (.semicolon rfl)
    · have hright := hprints.readsAs (hsemicolon _) (readsAs_semicolon hrest)
      have hassignment : ReadsAs (Utf8.encode "=" ++ _) (.ofKind .assignment :: _) :=
        hright.space.ofKind rfl (hspace _ _)
      have hleft := hassignment.space.token hspelledName (hspace _ _)
      have hwhole := hleft.space.token hspelled (hspace _ _)
      simp only [text, Identifier.ofToken, Utf8.encode_append, List.append_assoc]
      exact hwhole
  | @returningNothing kw hkw hspelled =>
    refine ⟨[kw], [.ofKind .semicolon], ?_, .inl ⟨_, rfl, rfl⟩, fun _ => ⟨_, rfl, ?_⟩,
      fun _ hrest => ?_⟩
    · exact List.forall_mem_singleton.mpr (by simp [hkw])
    · exact .returningNothing hkw (.semicolon rfl)
    · simp only [text, Utf8.encode_append, List.append_assoc]
      exact (readsAs_semicolon hrest).token hspelled (hsemicolon _ _)
  | @returning kw value hkw hspelled hvalue =>
    obtain ⟨tokens, nesting, hprints⟩ := hvalue.exists_printsAs
    refine ⟨kw :: tokens, [.ofKind .semicolon], ?_, .inl ⟨_, rfl, rfl⟩, fun _ => ⟨_, rfl, ?_⟩,
      fun _ hrest => ?_⟩
    · exact List.forall_mem_cons.mpr ⟨by simp [hkw], hprints.plain⟩
    · rw [show Stmt.need (.returning kw (some value)) = value.need from rfl, hprints.need_eq]
      exact .returning hkw (hprints.derives.weaken (by decide)) (.semicolon rfl)
    · have hvalue := hprints.readsAs (hsemicolon _) (readsAs_semicolon hrest)
      simp only [text, Utf8.encode_append, List.append_assoc]
      exact hvalue.space.token hspelled (hspace _ _)
  | @expression token value hvalue =>
    obtain ⟨tokens, nesting, hprints⟩ := hvalue.exists_printsAs
    obtain ⟨first, rest, rfl, -⟩ := hprints.derives.exists_first_of_expr
    refine ⟨first :: rest, [], hprints.plain, .inr ⟨rfl, rfl⟩,
      fun hnext => ⟨.expression first value, rfl, ?_⟩, fun hbytes hrest => ?_⟩
    · rw [show Stmt.need (.expression token value) = value.need from rfl, hprints.need_eq,
        hnext rfl]
      refine .expression (hprints.derives.weaken (by decide)) (.nothing ?_)
      rintro (heof | ⟨stratum, hmem⟩)
      · contradiction
      · cases stratum <;> simp [Stratum.operators] at hmem
    · obtain rfl := hbytes rfl
      rw [List.append_nil (first :: rest)]
      exact hprints.readsAs .nil hrest

end Stmt

namespace Attempt

/-- What came of an attempt, without places. -/
def outcome (attempt : Attempt) : Except Cause Stmt :=
  match (attempt.relocate .erase).result with
  | .ok tree => .ok tree.withoutToken
  | .error diagnostic => .error diagnostic.cause

/-- An attempt that fails ends on a semicolon or a closing brace, or with the input. -/
theorem kind_last_of_error {attempt : Attempt} {diagnostic : Diagnostic}
    (hresult : attempt.result = .error diagnostic) :
    attempt.last.tokens = [] ∨ attempt.last.current.kind = .semicolon ∨
      attempt.last.current.kind = .closeCurly := by
  rw [last, hresult]
  exact Cursor.kind_skipBroken _ _

/-- An attempt that fails on tokens without braces ends with their first semicolon, or with the
input if there is none. -/
theorem tokens_next_of_plain {c : Cursor} {front ending rest : List Token} {diagnostic : Diagnostic}
    (hzero : c.openBraces = 0) (hplain : ∀ token ∈ front, token.kind.Plain)
    (htail : c.tokens.tail = front ++ ending ++ rest)
    (hends : (∃ semicolon, ending = [semicolon] ∧ semicolon.kind = .semicolon) ∨
      ending = [] ∧ rest = [])
    (hresult : (ofCursor Table.standard.statement c.advance).result = .error diagnostic) :
    (ofCursor Table.standard.statement c.advance).next.tokens = rest := by
  have hlast := kind_last_of_error hresult
  have hreaches := (reaches_last Table.standard.statement c.advance).tokens_suffix
  have hnot {token : Token} (hmem : token ∈ front) :
      ¬ (token.kind = .semicolon ∨ token.kind = .closeCurly) := by
    obtain ⟨-, -, -, hclose, hsemicolon⟩ := hplain token hmem
    exact not_or.mpr ⟨hsemicolon, hclose⟩
  rw [next, Cursor.tokens_advance]
  rcases hends with ⟨semicolon, rfl, hsemicolon⟩ | ⟨rfl, rfl⟩
  · rw [List.append_assoc, List.singleton_append] at htail
    obtain ⟨taken, more, htakes, heq, -, -, htaken⟩ :=
      exists_takes_last hzero (Clause.of_plain hplain).balanced hsemicolon htail
    obtain ⟨init, token, rfl⟩ := (List.eq_nil_or_concat' taken).resolve_left htaken
    rcases List.eq_nil_or_concat' more with rfl | ⟨more, other, rfl⟩
    · exact htakes.tail_of_append htail heq
    · -- A token before the semicolon is none on which a failed attempt ends.
      rw [Cursor.current, htakes.tokens_eq] at hlast
      rw [← List.append_assoc] at heq
      have hmem : token ∈ front := by
        rw [(List.append_inj' heq rfl).1]
        simp
      exact absurd (hlast.resolve_left (List.cons_ne_nil _ _)) (hnot hmem)
  · rw [List.append_nil, List.append_nil] at htail
    rw [Cursor.tokens_advance, htail] at hreaches
    cases htokens : (ofCursor Table.standard.statement c.advance).last.tokens with
    | nil => rfl
    | cons token left =>
      rw [Cursor.current, htokens] at hlast
      rw [htokens] at hreaches
      have hmem := hreaches.subset List.mem_cons_self
      exact absurd (hlast.resolve_left (List.cons_ne_nil _ _)) (hnot hmem)

end Attempt

/-- The same comes of the same attempts, wherever they are made. -/
theorem SameAttempts.outcomes {found found' : List Attempt} (h : SameAttempts found found') :
    found.map Attempt.outcome = found'.map Attempt.outcome := by
  induction found' generalizing found with
  | nil => rw [List.map_eq_nil_iff.mp h]
  | cons attempt rest ih =>
    obtain ⟨attempt', rest', rfl, hattempt, hrest⟩ := List.map_eq_cons_iff.mp h
    rw [List.map_cons, List.map_cons, ih hrest, Attempt.outcome, Attempt.outcome, hattempt]

/-- A printed statement takes one attempt, which reads it or refuses it for the depth of its
nesting. -/
theorem attempts_of_printsAs {tree : Stmt} {front ending rest : List Token}
    (h : tree.PrintsAs front ending) {c : Cursor} (hzero : c.openBraces = 0)
    (htail : c.tokens.tail = front ++ ending ++ rest) (hlast : ending = [] → rest = [])
    (hfollow : firstKind rest .eof ≠ .kwElse ∧ firstKind rest .eof ≠ .semicolon) :
    ∃ between : Cursor, between.tokens.tail = rest ∧ between.openBraces = 0 ∧
      (attempts Table.standard.statement c.advance).map Attempt.outcome =
        tree.outcome ::
          (attempts Table.standard.statement between.advance).map Attempt.outcome := by
  obtain ⟨between, htakes, hrest⟩ := Cursor.Takes.exists_of_tail_eq htail
  obtain ⟨tree', hbare, hderives⟩ := h.exists_derives fun hnil =>
    show firstKind rest .eof = .eof by rw [hlast hnil, firstKind_nil]
  have hbetween : between.openBraces = 0 :=
    (htakes.openBraces_of_balanced hderives.balanced).trans hzero
  have hnext : between.peek.kind = firstKind rest .eof := by
    rw [between.peek_kind_eq_firstKind, hrest]
  have hgives := gives_statement hderives htakes hnext hfollow (by simp [hzero])
  have hleft : c.advance.tokens ≠ [] := by
    obtain ⟨token, others, heq, -⟩ := hderives.exists_first_of_stmt
    simp [htail, heq]
  refine ⟨between, hrest, hbetween, ?_⟩
  generalize hrun : Table.standard.statement.run c.advance = outcome at hgives
  cases hgives with
  | good hle =>
    rw [attempts_eq_cons hleft hrun, List.map_cons]
    have houtcome : Attempt.outcome ⟨c.advance, .ok tree', between⟩ = .ok tree'.bare := rfl
    rw [houtcome, hbare, Stmt.outcome, if_pos hle]
    rfl
  | @tooDeep diagnostic stop hnot hcause =>
    -- Just the rest of this statement is skipped, so the next one is read in its turn.
    have hends : (∃ semicolon, ending = [semicolon] ∧ semicolon.kind = .semicolon) ∨
        ending = [] ∧ rest = [] := h.ends.imp_right fun ⟨hnil, _⟩ => ⟨hnil, hlast hnil⟩
    have hattempt : Attempt.ofCursor Table.standard.statement c.advance =
        ⟨c.advance, .error diagnostic, stop⟩ := by
      rw [Attempt.ofCursor, hrun]
    have hresult := congrArg Attempt.result hattempt
    have hsame := attempts_congr (c := between.advance) (fun _ => Cursor.outside_advance hbetween)
      (Attempt.outside_next (Cursor.outside_advance hzero))
      ((Attempt.tokens_next_of_plain hzero h.plain htail hends hresult).trans hrest.symm)
      ((Attempt.reaches_last _ c.advance).advance.finish_eq.trans htakes.finish_eq.symm)
    rw [hattempt] at hsame
    have houtcome : Attempt.outcome ⟨c.advance, .error diagnostic, stop⟩ =
      .error diagnostic.cause := rfl
    rw [attempts_eq_cons hleft hrun, List.map_cons, hsame, houtcome, hcause, Stmt.outcome,
      if_neg hnot]

/-- Statements are printed one after the other, and each of them takes one attempt. -/
theorem exists_outcomes {trees : List Stmt} (hprintable : ∀ tree ∈ trees, tree.Printable)
    (hends : ∀ tree ∈ trees.dropLast, tree.isExpression = false) :
    ∃ tokens, ReadsAs (Utf8.encode (Stmt.texts trees)) tokens ∧ (trees = [] → tokens = []) ∧
      (firstKind tokens .eof ≠ .kwElse ∧ firstKind tokens .eof ≠ .semicolon) ∧
      ∀ c : Cursor, c.tokens.tail = tokens → c.openBraces = 0 →
        (attempts Table.standard.statement c.advance).map Attempt.outcome =
          trees.map Stmt.outcome := by
  induction trees with
  | nil =>
    refine ⟨[], .nil, fun _ => rfl, by decide, fun c htail _ => ?_⟩
    rw [attempts_of_tokens_eq_nil htail, List.map_nil, List.map_nil]
  | cons tree trees ih =>
    obtain ⟨hfirst, hrest⟩ := List.forall_mem_cons.mp hprintable
    have hsplit : (∀ other ∈ trees.dropLast, other.isExpression = false) ∧
        (trees ≠ [] → tree.isExpression = false) := by
      cases trees with
      | nil => exact ⟨List.forall_mem_nil _, fun hne => absurd rfl hne⟩
      | cons next more =>
        obtain ⟨htree, hmore⟩ := List.forall_mem_cons.mp hends
        exact ⟨hmore, fun _ => htree⟩
    obtain ⟨tokens, hreads, hnil, hfollow, hattempts⟩ := ih hrest hsplit.1
    obtain ⟨front, ending, hprints⟩ := hfirst.exists_printsAs
    have hlast (hending : ending = []) : trees = [] := by
      obtain ⟨semicolon, hsemicolon, -⟩ | ⟨-, hexpression⟩ := hprints.ends
      · rw [hending] at hsemicolon
        contradiction
      · by_contra hne
        rw [hsplit.2 hne] at hexpression
        contradiction
    have hwhole := hprints.readsAs (fun hending => by rw [hlast hending]; rfl) hreads
    rw [← Utf8.encode_append, ← Stmt.texts] at hwhole
    refine ⟨front ++ ending ++ tokens, hwhole, fun h => absurd h (List.cons_ne_nil _ _), ?_,
      fun c htail hzero => ?_⟩
    · obtain ⟨tree', -, hderives⟩ := hprints.exists_derives fun _ => Eq.refl Kind.eof
      obtain ⟨token, others, heq, hkind⟩ := hderives.exists_first_of_stmt
      obtain ⟨helse, -, -, hsemicolon⟩ := Kind.ne_of_startsStmt hkind
      rw [heq]
      exact ⟨helse, hsemicolon⟩
    · obtain ⟨between, htokens, hbetween, houtcomes⟩ :=
        attempts_of_printsAs hprints hzero htail (fun hending => hnil (hlast hending)) hfollow
      rw [houtcomes, hattempts between htokens hbetween, List.map_cons]

/-- A printed program takes one attempt for each of its statements. -/
theorem outcomes_of_text {program : Program} (file : Option String)
    (hprintable : ∀ tree ∈ program.statements, tree.Printable)
    (hends : ∀ tree ∈ program.statements.dropLast, tree.isExpression = false) :
    (sourceAttempts program.text file).map Attempt.outcome =
      program.statements.map Stmt.outcome := by
  obtain ⟨tokens, hreads, -, -, hattempts⟩ := exists_outcomes hprintable hends
  have hsame := attempts_of_sameTokens (hreads (.ofString program.text file) rfl)
    (Lexer.ofString program.text file).finish (Lexer.ofString program.text file).finish
  exact hsame.outcomes.trans
    (hattempts (.before tokens (Lexer.ofString program.text file).finish 0) rfl rfl)

/-- The statements and the diagnostics are told by the outcomes. -/
theorem Attempt.of_outcomes {found : List Attempt} {trees : List Stmt}
    (h : found.map outcome = trees.map Stmt.outcome) :
    (program found).statements.map Stmt.bare =
        (trees.filter fun tree => tree.need ≤ nestingLimit).map Stmt.bare ∧
      (diagnostics found).map Diagnostic.cause =
        (trees.filter fun tree => nestingLimit < tree.need).map
          fun _ => .nestingTooDeep nestingLimit := by
  induction trees generalizing found with
  | nil =>
    rw [List.map_nil, List.map_eq_nil_iff] at h
    subst h
    exact ⟨rfl, rfl⟩
  | cons tree trees ih =>
    obtain ⟨attempt, rest, rfl, hfirst, hrest⟩ := List.map_eq_cons_iff.mp h
    obtain ⟨hstatements, hdiagnostics⟩ := ih hrest
    obtain ⟨start, result, stop⟩ := attempt
    by_cases hle : tree.need ≤ nestingLimit
    · rw [Stmt.outcome, if_pos hle] at hfirst
      cases result with
      | ok tree' =>
        have hbare : tree'.bare = tree.bare := Except.ok.inj hfirst
        rw [List.filter_cons_of_pos (by simpa using hle),
          List.filter_cons_of_neg (by simpa using hle), statements_program_cons_ok,
          diagnostics_cons_ok, List.map_cons, List.map_cons, hbare, hstatements]
        exact ⟨rfl, hdiagnostics⟩
      | error diagnostic => contradiction
    · rw [Stmt.outcome, if_neg hle] at hfirst
      cases result with
      | ok tree' => contradiction
      | error diagnostic =>
        have hcause : diagnostic.cause = .nestingTooDeep nestingLimit := Except.error.inj hfirst
        rw [List.filter_cons_of_neg (by simpa using hle),
          List.filter_cons_of_pos (by simpa using hle), statements_program_cons_error,
          diagnostics_cons_error, List.map_cons, List.map_cons, hcause, hdiagnostics]
        exact ⟨hstatements, rfl⟩

/-- A program without conditionals and functions, of which only the last statement may be an
expression on its own, is printed as source: each statement is read again in its turn, but for
places and the token of an expression on its own, unless it needs more frames than may be open,
and then it is refused for that. The nodes of the program have to agree with their tokens, as they
do in every program that is read from a source. -/
theorem parse_text {program : Program} (file : Option String)
    (hprintable : (∀ tree ∈ program.statements, tree.Printable) ∨
      (∀ tree ∈ program.statements, tree.Flat) ∧
        ∃ source origin, program = (parse source origin).1)
    (hends : ∀ tree ∈ program.statements.dropLast, tree.isExpression = false) :
    (sourceAttempts program.text file).map Attempt.outcome =
        program.statements.map Stmt.outcome ∧
      (parse program.text file).1.statements.map Stmt.bare =
        (program.statements.filter fun tree => tree.need ≤ nestingLimit).map Stmt.bare ∧
      (parse program.text file).2.map Diagnostic.cause =
        (program.statements.filter fun tree => nestingLimit < tree.need).map
          fun _ => .nestingTooDeep nestingLimit := by
  have hall : ∀ tree ∈ program.statements, tree.Printable := by
    rcases hprintable with hall | ⟨hflat, source, origin, rfl⟩
    · exact hall
    · exact fun tree hmem => printable_of_parse hmem (hflat tree hmem)
  have houtcomes := outcomes_of_text file hall hends
  exact ⟨houtcomes, Attempt.of_outcomes houtcomes⟩

/-- Fifty signs before a name are read from a source, but not from the text they are printed as:
the parentheses there need one frame more than may be open. The other statements are kept. -/
theorem parse_text_of_signs :
    ∃ program : Program, (∀ tree ∈ program.statements, tree.Printable) ∧
      (∀ tree ∈ program.statements.dropLast, tree.isExpression = false) ∧
      program.statements.map Stmt.need = [101, 0, 4] ∧
      (parse program.text none).1.statements.map Stmt.bare =
        program.statements.tail.map Stmt.bare ∧
      (parse program.text none).2.map Diagnostic.cause = [.nestingTooDeep nestingLimit] := by
  let name : Token := ⟨.identifier, "a", .null⟩
  let sign (value : Expr) : Expr := .prefixOp (.ofKind .dash) "-" value
  let deep : Expr := Nat.repeat sign 50 (.identifier (.ofToken name))
  let call : Expr := .call (.ofKind .openParen) (.identifier (.ofToken name))
    [sign (.identifier (.ofToken name)), .identifier (.ofToken name)]
  have hletters : ∀ c ∈ "a".toList, isWordChar c := List.all_eq_true.mp rfl
  have hspelled : name.Spelled :=
    show "a" ≠ "" ∧ _ ∧ Kind.ofWord "a" = .identifier from ⟨by decide, hletters, by decide⟩
  have hname : Expr.Printable (.identifier (.ofToken name)) := .identifier rfl hspelled
  have hsign {value : Expr} (h : value.Printable) : (sign value).Printable :=
    .prefixOp (.inl rfl) rfl h
  have hdeep (count : Nat) :
      (Nat.repeat sign count (.identifier (.ofToken name))).Printable := by
    induction count with
    | zero => exact hname
    | succ count ih => exact hsign ih
  have harguments : ∀ argument ∈ [sign (.identifier (.ofToken name)), .identifier (.ofToken name)],
      Expr.Printable argument :=
    List.forall_mem_cons.mpr ⟨hsign hname, List.forall_mem_singleton.mpr hname⟩
  have hcall : call.Printable := .call rfl rfl hname harguments
  let program : Program :=
    ⟨[.binding (.ofKind .kwLet) (.ofToken name) deep, .returning (.ofKind .kwReturn) none,
      .expression name call]⟩
  have hprintable : ∀ tree ∈ program.statements, tree.Printable := by
    refine List.forall_mem_cons.mpr ⟨?_, List.forall_mem_cons.mpr ⟨?_, ?_⟩⟩
    · exact .binding rfl rfl rfl hspelled (hdeep 50)
    · exact .returningNothing rfl rfl
    · exact List.forall_mem_singleton.mpr (.expression hcall)
  have hends : ∀ tree ∈ program.statements.dropLast, tree.isExpression = false := by
    decide
  have hkept : (program.statements.filter fun tree => tree.need ≤ nestingLimit) =
      program.statements.tail := by decide +kernel
  have hrefused : (program.statements.filter fun tree => nestingLimit < tree.need) =
      program.statements.take 1 := by decide +kernel
  obtain ⟨-, hstatements, hdiagnostics⟩ := parse_text none (.inl hprintable) hends
  rw [hkept] at hstatements
  rw [hrefused] at hdiagnostics
  exact ⟨program, hprintable, hends, by decide +kernel, hstatements, hdiagnostics⟩

end LetScript
