import LetScript.Program.Attempt
import LetScript.Proofs.Soundness
import Mathlib.Data.List.Forall2

/-!
# The statements of a program

Every attempt to read a statement starts outside all braces: a statement that is read closes the
braces it opens, and what is skipped after one that is broken ends where no brace is open. Hence
each statement of a program is derived, by the grammar, from the tokens that were taken for it,
as a statement that stands in no block and with no more frames open than levels may be nested.
-/

namespace LetScript

namespace Cursor

/-- Skipping a broken statement ends outside all braces, or at the end of the input. -/
theorem openBraces_skipBroken (inside : Bool) (cursor : Cursor) :
    (cursor.skipBroken inside).openBraces = 0 ∨ (cursor.skipBroken inside).tokens = [] := by
  fun_induction skipBroken inside cursor with
  | case1 _ htokens => exact .inr htokens
  | case2 _ _ _ _ h => exact .inl h.1
  | case3 cursor _ _ _ _ h hpeek =>
    left
    simp [advance, hpeek, h.1, Kind.openBraces_eq]
  | case4 _ _ _ _ _ h => exact .inl h.1
  | case5 _ _ _ _ _ _ _ ih => exact ih

end Cursor

namespace Attempt

/-- The tokens that the reading of a statement took, from the first up to where it stopped. -/
def tokens (attempt : Attempt) : List Token := attempt.start.through attempt.stop

/-- The tokens that belong to an attempt, those skipped included. -/
def extent (attempt : Attempt) : List Token := attempt.start.through attempt.last

/-- Whether a statement was read. -/
def succeeded (attempt : Attempt) : Bool := attempt.statement?.isSome

theorem reaches_last_of_stop (attempt : Attempt) : attempt.stop.Reaches attempt.last := by
  unfold last
  split
  · exact .refl
  · exact Cursor.reaches_skipBroken _ _

theorem statements_program_cons (attempt : Attempt) (rest : List Attempt) :
    (program (attempt :: rest)).statements =
      attempt.statement?.toList ++ (program rest).statements := by
  rw [program, List.filterMap_cons]
  cases attempt.statement? <;> rfl

theorem diagnostics_cons (attempt : Attempt) (rest : List Attempt) :
    diagnostics (attempt :: rest) = attempt.diagnostic?.toList ++ diagnostics rest := by
  rw [diagnostics, List.filterMap_cons]
  cases attempt.diagnostic? <;> rfl

@[simp] theorem statements_program_cons_ok (start stop : Cursor) (tree : Stmt)
    (rest : List Attempt) :
    (program (⟨start, .ok tree, stop⟩ :: rest)).statements = tree :: (program rest).statements :=
  rfl

@[simp] theorem statements_program_cons_error (start stop : Cursor) (diagnostic : Diagnostic)
    (rest : List Attempt) :
    (program (⟨start, .error diagnostic, stop⟩ :: rest)).statements =
      (program rest).statements :=
  rfl

@[simp] theorem diagnostics_cons_ok (start stop : Cursor) (tree : Stmt) (rest : List Attempt) :
    diagnostics (⟨start, .ok tree, stop⟩ :: rest) = diagnostics rest := rfl

@[simp] theorem diagnostics_cons_error (start stop : Cursor) (diagnostic : Diagnostic)
    (rest : List Attempt) :
    diagnostics (⟨start, .error diagnostic, stop⟩ :: rest) = diagnostic :: diagnostics rest :=
  rfl

/-- The statements and the diagnostics of attempts are told by their results. -/
theorem congr_of_results {found found' : List Attempt}
    (h : found.map result = found'.map result) :
    program found = program found' ∧ diagnostics found = diagnostics found' := by
  induction found generalizing found' with
  | nil =>
    rw [List.map_nil, eq_comm, List.map_eq_nil_iff] at h
    rw [h]
    exact ⟨rfl, rfl⟩
  | cons attempt rest ih =>
    obtain ⟨attempt', rest', rfl, hfirst, hrest⟩ := List.map_eq_cons_iff.mp h.symm
    obtain ⟨hprogram, hdiagnostics⟩ := ih hrest.symm
    have hstatement : attempt'.statement? = attempt.statement? := by
      rw [statement?, statement?, hfirst]
    have hdiagnostic : attempt'.diagnostic? = attempt.diagnostic? := by
      rw [diagnostic?, diagnostic?, hfirst]
    simp only [program, diagnostics, List.filterMap_cons, hstatement, hdiagnostic, Program.mk.injEq]
      at hprogram hdiagnostics ⊢
    rw [hprogram, hdiagnostics]
    exact ⟨rfl, rfl⟩

/-- An attempt that succeeds gives its statement and no diagnostic. -/
theorem cons_of_ok {attempt : Attempt} {tree : Stmt} (h : attempt.result = .ok tree)
    (rest : List Attempt) :
    (program (attempt :: rest)).statements = tree :: (program rest).statements ∧
      diagnostics (attempt :: rest) = diagnostics rest := by
  obtain ⟨start, result, stop⟩ := attempt
  subst h
  exact ⟨rfl, rfl⟩

/-- An attempt that fails gives its diagnostic and no statement. -/
theorem cons_of_error {attempt : Attempt} {diagnostic : Diagnostic}
    (h : attempt.result = .error diagnostic) (rest : List Attempt) :
    (program (attempt :: rest)).statements = (program rest).statements ∧
      diagnostics (attempt :: rest) = diagnostic :: diagnostics rest := by
  obtain ⟨start, result, stop⟩ := attempt
  subst h
  exact ⟨rfl, rfl⟩

@[simp] theorem statements_program_append (first second : List Attempt) :
    (program (first ++ second)).statements =
      (program first).statements ++ (program second).statements :=
  List.filterMap_append

@[simp] theorem diagnostics_append (first second : List Attempt) :
    diagnostics (first ++ second) = diagnostics first ++ diagnostics second :=
  List.filterMap_append

/-- A statement that is read is derived from the tokens taken for it, outside all braces, which
it leaves as they are. -/
theorem derives_of_result {attempt : Attempt} {start : Cursor} {tree : Stmt}
    (hattempt : attempt = .ofCursor Table.standard.statement start) (houtside : start.Outside)
    (hresult : attempt.result = .ok tree) :
    (∃ nesting ≤ nestingLimit,
        Derives (.stmt false attempt.stop.peek.kind tree) attempt.tokens nesting) ∧
      (Cursor.before start.tokens start.finish 0).Takes attempt.tokens attempt.stop := by
  subst hattempt
  have hrun : Table.standard.statement.run (Cursor.before start.tokens start.finish 0).advance =
      (.ok tree, (Attempt.ofCursor Table.standard.statement start).stop) := by
    rw [← houtside.eq_advance, ← hresult]
    rfl
  have hinside : false = decide (0 < (Cursor.before start.tokens start.finish 0).openBraces) := rfl
  obtain ⟨tokens, nesting, htakes, hderives, hle⟩ :=
    (Table.sound_level nestingLimit).readStmt hinside hrun
  obtain ⟨first, rest, rfl, -⟩ := hderives.exists_first_of_stmt
  have heq : (Attempt.ofCursor Table.standard.statement start).tokens = first :: rest := by
    obtain ⟨init, last, hlast⟩ := List.eq_nil_or_concat (first :: rest) |>.resolve_left (by simp)
    rw [hlast, List.concat_eq_append] at htakes ⊢
    rw [← htakes.through_eq, ← houtside.eq_advance]
    rfl
  rw [heq]
  exact ⟨⟨nesting, hle, hderives⟩, htakes⟩

/-- After an attempt that starts outside all braces, the next one does, unless nothing is left. -/
theorem outside_next {start : Cursor} (houtside : start.Outside)
    (hnext : (ofCursor Table.standard.statement start).next.tokens ≠ []) :
    (ofCursor Table.standard.statement start).next.Outside := by
  apply Cursor.outside_advance
  cases hresult : (ofCursor Table.standard.statement start).result with
  | ok tree =>
    obtain ⟨⟨nesting, -, hderives⟩, htakes⟩ := derives_of_result rfl houtside hresult
    have hbraces := htakes.openBraces_of_balanced hderives.balanced
    simpa [last, hresult] using hbraces
  | error diagnostic =>
    simp only [next, last, hresult, Cursor.tokens_advance] at hnext ⊢
    rcases Cursor.openBraces_skipBroken _ (ofCursor Table.standard.statement start).stop with
      hzero | hnil
    · exact hzero
    · exact absurd (by rw [Cursor.recover, hnil]; rfl) hnext

end Attempt

/-- The first attempt is the one from the first token on. -/
theorem attempts_eq_cons {statement : Routine Stmt} {c stop : Cursor}
    {result : Except Diagnostic Stmt} (hleft : c.tokens ≠ [])
    (hrun : statement.run c = (result, stop)) :
    attempts statement c =
      ⟨c, result, stop⟩ :: attempts statement (Attempt.next ⟨c, result, stop⟩) := by
  rw [attempts_of_tokens_ne_nil hleft]
  simp only [Attempt.ofCursor, hrun]

/-- The first attempt is made where the reading starts, and the others from where it ends on. -/
theorem of_attempts_eq_cons {statement : Routine Stmt} {c : Cursor} {attempt : Attempt}
    {rest : List Attempt} (h : attempts statement c = attempt :: rest) :
    c.tokens ≠ [] ∧ attempt = .ofCursor statement c ∧ attempts statement attempt.next = rest := by
  by_cases hnil : c.tokens = []
  · rw [attempts_of_tokens_eq_nil hnil] at h
    contradiction
  · rw [attempts_of_tokens_ne_nil hnil] at h
    obtain ⟨rfl, hrest⟩ := List.cons.inj h
    exact ⟨hnil, rfl, hrest⟩

/-- Each attempt starts at a place that advancing comes to, and the later ones are those made from
there on. -/
theorem of_attempts_eq_append {statement : Routine Stmt} {c : Cursor} {first second : List Attempt}
    {attempt : Attempt} (h : attempts statement c = first ++ attempt :: second) :
    c.Reaches attempt.start ∧ attempts statement attempt.start = attempt :: second := by
  induction first generalizing c with
  | nil =>
    obtain ⟨-, rfl, -⟩ := of_attempts_eq_cons h
    exact ⟨.refl, h⟩
  | cons other rest ih =>
    obtain ⟨-, rfl, hrest⟩ := of_attempts_eq_cons h
    obtain ⟨hreaches, hsecond⟩ := ih hrest
    exact ⟨(Attempt.reaches_last statement c).advance.trans hreaches, hsecond⟩

/-- Every attempt of the language starts outside all braces and is made there. -/
theorem outside_of_mem_attempts {start : Cursor} (houtside : start.Outside) {attempt : Attempt}
    (hmem : attempt ∈ attempts Table.standard.statement start) :
    attempt.start.Outside ∧ attempt = .ofCursor Table.standard.statement attempt.start := by
  fun_induction attempts Table.standard.statement start with
  | case1 => contradiction
  | case2 start hleft _ ih =>
    rcases List.mem_cons.mp hmem with rfl | hrest
    · exact ⟨houtside, rfl⟩
    · by_cases hnext : (Attempt.ofCursor Table.standard.statement start).next.tokens = []
      · rw [attempts_of_tokens_eq_nil hnext] at hrest
        contradiction
      · exact ih (Attempt.outside_next houtside hnext) hrest

theorem Cursor.outside_ofString (source : String) (file : Option String) :
    (Cursor.ofString source file).Outside := rfl

theorem outside_of_mem_sourceAttempts {source : String} {file : Option String}
    {attempt : Attempt} (hmem : attempt ∈ sourceAttempts source file) :
    attempt.start.Outside ∧ attempt = .ofCursor Table.standard.statement attempt.start :=
  outside_of_mem_attempts (Cursor.outside_ofString source file) hmem

/-- What an attempt that succeeds takes is followed by what is left for the next one. -/
theorem Attempt.tokens_start_eq {start : Cursor} (houtside : start.Outside) {tree : Stmt}
    (hresult : (ofCursor Table.standard.statement start).result = .ok tree) :
    start.tokens = (ofCursor Table.standard.statement start).tokens ++
      (ofCursor Table.standard.statement start).next.tokens := by
  obtain ⟨-, htakes⟩ := derives_of_result rfl houtside hresult
  rw [next, last, hresult, Cursor.tokens_advance]
  exact htakes.tail_eq

/-- Tokens that an attempt has taken do not start with an opening brace. -/
theorem Attempt.kind_ne_openCurly {start : Cursor} (houtside : start.Outside) {tree : Stmt}
    (hresult : (ofCursor Table.standard.statement start).result = .ok tree) {token : Token}
    {rest : List Token}
    (htokens : (ofCursor Table.standard.statement start).tokens = token :: rest) :
    token.kind ≠ .openCurly := by
  obtain ⟨⟨nesting, -, hderives⟩, -⟩ := derives_of_result rfl houtside hresult
  rw [htokens] at hderives
  obtain ⟨first, others, heq, hfirst⟩ := hderives.exists_first_of_stmt
  obtain ⟨rfl, -⟩ := List.cons.inj heq
  obtain ⟨-, hopen, -⟩ := Kind.ne_of_startsStmt hfirst
  exact hopen

/-- The last of the tokens that an attempt has taken is where it stopped. -/
theorem Attempt.exists_tokens_eq {attempt : Attempt} {start : Cursor} {tree : Stmt}
    (hattempt : attempt = .ofCursor Table.standard.statement start) (houtside : start.Outside)
    (hresult : attempt.result = .ok tree) :
    ∃ init, attempt.tokens = init ++ [attempt.stop.current] := by
  obtain ⟨⟨nesting, -, hderives⟩, htakes⟩ := derives_of_result hattempt houtside hresult
  obtain ⟨first, others, hne, -⟩ := hderives.exists_first_of_stmt
  obtain ⟨init, last, heq⟩ :=
    (List.eq_nil_or_concat attempt.tokens).resolve_left (hne ▸ List.cons_ne_nil first others)
  rw [List.concat_eq_append] at heq
  rw [heq] at htakes
  refine ⟨init, heq.trans ?_⟩
  rw [Cursor.current, htakes.tokens_eq]
  rfl

/-- Where all attempts succeed, they take all the tokens. -/
theorem tokens_eq_flatMap {c : Cursor} (houtside : c.Outside)
    (h : Attempt.diagnostics (attempts Table.standard.statement c) = []) :
    c.tokens = (attempts Table.standard.statement c).flatMap Attempt.tokens := by
  fun_induction attempts Table.standard.statement c with
  | case1 c hnil => exact hnil
  | case2 c hleft _ ih =>
    cases hresult : (Attempt.ofCursor Table.standard.statement c).result with
    | error diagnostic =>
      simp [Attempt.diagnostics, Attempt.diagnostic?, hresult] at h
    | ok tree =>
      rw [Attempt.tokens_start_eq houtside hresult, List.flatMap_cons]
      congr 1
      by_cases hnext : (Attempt.ofCursor Table.standard.statement c).next.tokens = []
      · rw [hnext, attempts_of_tokens_eq_nil hnext, List.flatMap_nil]
      · refine ih (Attempt.outside_next houtside hnext) ?_
        simpa [Attempt.diagnostics, Attempt.diagnostic?, hresult] using h

/-- Where the same tokens are left outside all braces, the same attempts are made. -/
theorem attempts_congr {c c' : Cursor} (houtside : c.tokens ≠ [] → c.Outside)
    (houtside' : c'.tokens ≠ [] → c'.Outside) (htokens : c'.tokens = c.tokens)
    (hfinish : c'.finish = c.finish) :
    attempts Table.standard.statement c' = attempts Table.standard.statement c := by
  by_cases hnil : c.tokens = []
  · rw [attempts_of_tokens_eq_nil hnil, attempts_of_tokens_eq_nil (htokens.trans hnil)]
  · rw [(houtside hnil).eq_advance, (houtside' (htokens ▸ hnil)).eq_advance, htokens, hfinish]

/-- Where there are no diagnostics, every attempt succeeds. -/
theorem Attempt.succeeds_of_diagnostics_eq_nil {first second : List Attempt} {attempt : Attempt}
    (h : diagnostics (first ++ attempt :: second) = []) :
    diagnostics first = [] ∧ (∃ tree, attempt.result = .ok tree) ∧ diagnostics second = [] := by
  rw [diagnostics_append, List.append_eq_nil_iff] at h
  obtain ⟨hfirst, hrest⟩ := h
  obtain ⟨start, result, stop⟩ := attempt
  cases result with
  | ok tree => exact ⟨hfirst, ⟨tree, rfl⟩, hrest⟩
  | error diagnostic =>
    rw [diagnostics_cons_error] at hrest
    contradiction

/-- In a source without diagnostics, an attempt takes what stands between the tokens that those
before and those after it take. -/
theorem split_of_attempts {c : Cursor} (houtside : c.Outside)
    (hparses : Attempt.diagnostics (attempts Table.standard.statement c) = [])
    {first second : List Attempt} {attempt : Attempt}
    (hattempts : attempts Table.standard.statement c = first ++ attempt :: second) :
    attempt.start.Outside ∧ attempt = .ofCursor Table.standard.statement attempt.start ∧
      attempt.start.tokens = attempt.tokens ++ second.flatMap Attempt.tokens ∧
      c.tokens = first.flatMap Attempt.tokens ++ attempt.start.tokens := by
  have hwhole := tokens_eq_flatMap houtside hparses
  obtain ⟨-, hfrom⟩ := of_attempts_eq_append hattempts
  have hmem : attempt ∈ attempts Table.standard.statement c := by
    rw [hattempts]
    simp
  obtain ⟨hstart, hattempt⟩ := outside_of_mem_attempts houtside hmem
  rw [hattempts, Attempt.diagnostics_append, List.append_eq_nil_iff] at hparses
  have hrest := tokens_eq_flatMap hstart (hfrom ▸ hparses.2)
  rw [hattempts, List.flatMap_append] at hwhole
  rw [hfrom, List.flatMap_cons] at hrest
  exact ⟨hstart, hattempt, hrest, by rw [hwhole, hrest, List.flatMap_cons]⟩

/-- Where all attempts succeed, the tokens do not start in the middle of a statement. -/
theorem firstKind_of_attempts {c : Cursor} (houtside : c.tokens ≠ [] → c.Outside)
    (hparses : Attempt.diagnostics (attempts Table.standard.statement c) = []) :
    firstKind c.tokens .eof ≠ .kwElse ∧ firstKind c.tokens .eof ≠ .semicolon := by
  by_cases hnil : c.tokens = []
  · simp [hnil]
  · rw [attempts_of_tokens_ne_nil hnil, ← List.nil_append (_ :: _)] at hparses
    obtain ⟨-, ⟨tree, hresult⟩, -⟩ := Attempt.succeeds_of_diagnostics_eq_nil hparses
    obtain ⟨⟨nesting, -, hderives⟩, -⟩ := Attempt.derives_of_result rfl (houtside hnil) hresult
    obtain ⟨first, rest, heq, hfirst⟩ := hderives.exists_first_of_stmt
    obtain ⟨helse, -, -, hsemicolon⟩ := Kind.ne_of_startsStmt hfirst
    rw [Attempt.tokens_start_eq (houtside hnil) hresult, heq]
    exact ⟨helse, hsemicolon⟩

/-- The statements of a program are those of the attempts that succeeded. -/
theorem Attempt.exists_of_mem_program {found : List Attempt} {tree : Stmt}
    (h : tree ∈ (program found).statements) : ∃ attempt ∈ found, attempt.result = .ok tree := by
  obtain ⟨⟨start, result, stop⟩, hmem, hstatement⟩ := List.mem_filterMap.mp h
  cases result with
  | ok other => exact ⟨_, hmem, congrArg Except.ok (Option.some.inj hstatement)⟩
  | error diagnostic => contradiction

/-- The diagnostics are those of the attempts that failed. -/
theorem Attempt.exists_of_mem_diagnostics {found : List Attempt} {diagnostic : Diagnostic}
    (h : diagnostic ∈ diagnostics found) :
    ∃ attempt ∈ found, attempt.result = .error diagnostic := by
  obtain ⟨⟨start, result, stop⟩, hmem, hdiagnostic⟩ := List.mem_filterMap.mp h
  cases result with
  | ok tree => contradiction
  | error other => exact ⟨_, hmem, congrArg Except.error (Option.some.inj hdiagnostic)⟩

/-- What holds of the statement of every attempt that succeeded holds of those of the program, in
order. -/
theorem Attempt.forall₂_program {holds : Attempt → Stmt → Prop} {found : List Attempt}
    (h : ∀ attempt ∈ found, ∀ tree, attempt.result = .ok tree → holds attempt tree) :
    List.Forall₂ (fun attempt tree => attempt.result = .ok tree ∧ holds attempt tree)
      (found.filter succeeded) (program found).statements := by
  induction found with
  | nil => exact .nil
  | cons attempt rest ih =>
    have hrest := ih fun other hmem => h other (List.mem_cons_of_mem _ hmem)
    obtain ⟨start, result, stop⟩ := attempt
    cases result with
    | ok tree =>
      rw [List.filter_cons_of_pos rfl, statements_program_cons_ok]
      exact .cons ⟨rfl, h _ List.mem_cons_self tree rfl⟩ hrest
    | error diagnostic =>
      rw [List.filter_cons_of_neg (by simp [succeeded, statement?]),
        statements_program_cons_error]
      exact hrest

/-- Where reading statements up to the end of the input comes to stand. -/
def endOfAttempts (statement : Routine Stmt) (c : Cursor) : Cursor :=
  ((attempts statement c).getLast?.map Attempt.next).getD c

section EndOfAttempts

variable {statement : Routine Stmt} {c : Cursor}

theorem endOfAttempts_of_nil (h : c.tokens = []) : endOfAttempts statement c = c := by
  rw [endOfAttempts, attempts_of_tokens_eq_nil h]
  rfl

theorem endOfAttempts_of_ne (h : c.tokens ≠ []) :
    endOfAttempts statement c = endOfAttempts statement (Attempt.ofCursor statement c).next := by
  rw [endOfAttempts, attempts_of_tokens_ne_nil h, endOfAttempts]
  cases hrest : attempts statement (Attempt.ofCursor statement c).next with
  | nil => rfl
  | cons attempt rest => simp [List.getLast?_cons]

/-- It is the end of the input, which is reached by going forward. -/
theorem reaches_endOfAttempts (statement : Routine Stmt) (c : Cursor) :
    c.Reaches (endOfAttempts statement c) ∧ (endOfAttempts statement c).tokens = [] := by
  fun_induction attempts statement c with
  | case1 c hnil =>
    rw [endOfAttempts_of_nil hnil]
    exact ⟨.refl, hnil⟩
  | case2 c hleft _ ih =>
    rw [endOfAttempts_of_ne hleft]
    exact ⟨(Attempt.reaches_last statement c).advance.trans ih.1, ih.2⟩

/-- Each attempt takes a token. -/
theorem length_attempts_le (statement : Routine Stmt) (c : Cursor) :
    (attempts statement c).length ≤ c.tokens.length := by
  fun_induction attempts statement c with
  | case1 => exact Nat.zero_le _
  | case2 c hleft hlt ih =>
    rw [List.length_cons]
    omega

end EndOfAttempts

/-- The statements of a program are, in order, those of the attempts that succeeded, and each is
derived from exactly the tokens taken for it with at most as many frames open as may be. -/
theorem statements_derived (source : String) (file : Option String) :
    List.Forall₂
      (fun attempt tree => attempt.result = .ok tree ∧ ∃ nesting ≤ nestingLimit,
        Derives (.stmt false attempt.stop.peek.kind tree) attempt.tokens nesting)
      ((sourceAttempts source file).filter Attempt.succeeded)
      (parse source file).1.statements := by
  apply Attempt.forall₂_program
  intro attempt hmem tree hresult
  obtain ⟨houtside, hattempt⟩ := outside_of_mem_sourceAttempts hmem
  exact (Attempt.derives_of_result hattempt houtside hresult).1

end LetScript
