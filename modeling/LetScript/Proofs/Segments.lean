import LetScript.Proofs.Boundaries
import LetScript.Proofs.Extent
import LetScript.Proofs.Shifting
import Mathlib.Data.List.Nodup

/-!
# The segments of a source

The tokens of a source fall into segments, one for each attempt to read a statement. A segment
gives the next statement of the program, which is derived from exactly its tokens, or the next
diagnostic. The diagnostic stands at a token of the segment: whatever the reading could not go on
with is passed before the next attempt starts. Only where the input ends too early it stands at
the end of the input instead, and then no other segment follows.

The tokens before the one that could not be read are tokens of the language, and so is the last
token of each segment but perhaps the last. Hence a diagnostic never stands inside a character.
-/

namespace LetScript

namespace Cursor

/-- What stands from a place through a later one is followed by what is left after that. -/
theorem Reaches.through_append {start stop : Cursor} (h : start.Reaches stop) :
    start.tokens = start.through stop ++ stop.advance.tokens := by
  obtain ⟨front, hfront⟩ := h.tokens_suffix
  rw [through, ← hfront, tokens_advance]
  have hlonger : front.take (front.length + 1) = front := List.take_of_length_le (Nat.le_succ _)
  cases hstop : stop.tokens with
  | nil => simp [hlonger]
  | cons token rest =>
    rw [List.length_append, List.length_cons,
      show front.length + (rest.length + 1) + 1 - (rest.length + 1) = front.length + 1 by omega]
    simp [List.take_append, hlonger]

/-- The first of them is the one where it starts. -/
theorem Reaches.exists_through_cons {start stop : Cursor} (h : start.Reaches stop) {token : Token}
    {rest : List Token} (htokens : start.tokens = token :: rest) :
    ∃ more, start.through stop = token :: more := by
  have hle := h.length_tokens_le
  obtain ⟨count, hcount⟩ := Nat.exists_eq_succ_of_ne_zero
    (show start.tokens.length + 1 - stop.tokens.length ≠ 0 by omega)
  refine ⟨rest.take count, ?_⟩
  rw [through, hcount, htokens, Nat.succ_eq_add_one, List.take_succ_cons]

/-- The last of the tokens that stand through a place is the one there. -/
theorem Reaches.exists_through {start stop : Cursor} (h : start.Reaches stop)
    (hleft : stop.tokens ≠ []) : ∃ init, start.through stop = init ++ [stop.current] := by
  obtain ⟨token, rest, hstop⟩ := List.exists_cons_of_ne_nil hleft
  obtain ⟨front, hfront⟩ := h.tokens_suffix
  have happend := h.through_append
  rw [← hfront, tokens_advance, hstop, List.tail_cons, ← List.singleton_append,
    ← List.append_assoc] at happend
  refine ⟨front, ?_⟩
  rw [← List.append_cancel_right happend, current, hstop]
  rfl

/-- Skipping ends on a semicolon or a closing brace, or at the end of the input. -/
theorem kind_skipBroken (inside : Bool) (c : Cursor) :
    (c.skipBroken inside).tokens = [] ∨ (c.skipBroken inside).current.kind = .semicolon ∨
      (c.skipBroken inside).current.kind = .closeCurly := by
  fun_induction skipBroken inside c with
  | case1 _ htokens => exact .inl htokens
  | case2 c token rest htokens h => exact .inr (.inl (by simp [current, htokens, h.2]))
  | case3 c _ _ _ _ _ hpeek => exact .inr (.inl hpeek)
  | case4 c token rest htokens _ h => exact .inr (.inr (by simp [current, htokens, h.2.2]))
  | case5 _ _ _ _ _ _ _ ih => exact ih

/-- Where the part of a statement that was read ends with a semicolon, a brace is open. -/
theorem Takes.openBraces_ne_zero {c between : Cursor} {init : List Token} {semicolon : Token}
    (htakes : c.Takes (init ++ [semicolon]) between) (hzero : c.openBraces = 0)
    (h : Unfinished (init ++ [semicolon])) (hkind : semicolon.kind = .semicolon) :
    between.openBraces ≠ 0 := by
  intro hclosed
  have hbalanced := htakes.balanced_of_guarded h.guarded hzero hclosed
  have hinit := hbalanced.of_concat (by simp [hkind]) (by simp [hkind])
  exact h.unended init semicolon [] rfl hinit hkind

/-- Skipping goes past the last token of the part of a statement that was read. -/
theorem skipBroken_of_unfinished {c between : Cursor} {tokens : List Token}
    (htakes : c.Takes tokens between) (hzero : c.openBraces = 0) (hne : tokens ≠ [])
    (h : Unfinished tokens) :
    between.recover = between.advance.skipBroken (0 < between.openBraces) := by
  obtain ⟨init, last, rfl⟩ := (List.eq_nil_or_concat' tokens).resolve_left hne
  have hcurrent : between.current = last := by
    rw [current, htakes.tokens_eq]
    rfl
  have hleft : between.tokens ≠ [] := htakes.tokens_eq ▸ List.cons_ne_nil _ _
  refine skipBroken_of_not hleft ?_ fun h => by simp [h.1] at h
  rintro ⟨hclosed, hkind⟩
  rw [hcurrent] at hkind
  exact htakes.openBraces_ne_zero hzero h hkind hclosed

end Cursor

namespace Attempt

variable {c : Cursor} {diagnostic : Diagnostic}

/-- The tokens that belong to an attempt are followed by those left for the next one. -/
theorem tokens_eq_extent_append (c : Cursor) :
    c.tokens = (ofCursor Table.standard.statement c).extent ++
      (ofCursor Table.standard.statement c).next.tokens :=
  (reaches_last Table.standard.statement c).through_append

/-- At least one token belongs to every attempt. -/
theorem extent_ne_nil (hleft : c.tokens ≠ []) :
    (ofCursor Table.standard.statement c).extent ≠ [] := by
  intro hnil
  have hlt := length_tokens_next_lt Table.standard.statement hleft
  have happend := tokens_eq_extent_append c
  rw [hnil, List.nil_append] at happend
  rw [← happend] at hlt
  exact Nat.lt_irrefl _ hlt

/-- An attempt that fails comes past the token at which the reading breaks. -/
theorem exists_reaches_last (houtside : c.Outside)
    (hresult : (ofCursor Table.standard.statement c).result = .error diagnostic) :
    ∃ tokens between, (Cursor.before c.tokens c.finish 0).Takes tokens between ∧
      Unfinished tokens ∧ diagnostic.position = between.peek.position ∧
      between.advance.Reaches (ofCursor Table.standard.statement c).last := by
  obtain ⟨stop, hrun⟩ : ∃ stop, Table.standard.statement.run c = (.error diagnostic, stop) :=
    ⟨_, Prod.ext hresult rfl⟩
  have hlast : (ofCursor Table.standard.statement c).last = stop.recover := by
    rw [ofCursor, hrun, last]
  have hreaches := Table.standard.statement.reaches c
  rw [hrun] at hreaches
  rw [houtside.eq_advance] at hrun hreaches
  obtain ⟨tokens, between, htakes, hunfinished, hposition, hstop⟩ :=
    ((Table.failing_level nestingLimit).readStmt hrun).exists_stop
  refine ⟨tokens, between, htakes, hunfinished, hposition, ?_⟩
  rw [hlast]
  -- Reading stops before the token or on it.
  rcases hstop with rfl | rfl
  · have hne := htakes.ne_nil_of_reaches (List.cons_ne_nil _ _) hreaches
    rw [Cursor.skipBroken_of_unfinished htakes rfl hne hunfinished]
    exact Cursor.reaches_skipBroken _ _
  · exact Cursor.reaches_skipBroken _ _

/-- The token that could not be read belongs to the attempt that failed at it; only after the last
attempt this is the end of the input. -/
theorem exists_extent_of_error (houtside : c.Outside)
    (hresult : (ofCursor Table.standard.statement c).result = .error diagnostic) :
    ∃ tokens, Legal tokens ∧
      ((∃ token rest, (ofCursor Table.standard.statement c).extent = tokens ++ token :: rest ∧
        diagnostic.position = token.position) ∨
      (ofCursor Table.standard.statement c).next.tokens = [] ∧
        diagnostic.position = c.finish) := by
  obtain ⟨tokens, between, htakes, hunfinished, hposition, hreaches⟩ :=
    exists_reaches_last houtside hresult
  have htail : c.tokens = tokens ++ between.advance.tokens := htakes.tail_eq
  refine ⟨tokens, hunfinished.legal, ?_⟩
  cases hrest : between.tokens.tail with
  | nil =>
    have hsuffix := hreaches.tokens_suffix
    rw [Cursor.tokens_advance, hrest, List.suffix_nil] at hsuffix
    refine .inr ⟨by rw [next, Cursor.tokens_advance, hsuffix, List.tail_nil], ?_⟩
    rw [hposition, Cursor.peek, hrest]
    exact htakes.finish_eq
  | cons token rest =>
    obtain ⟨more, hthrough⟩ := hreaches.exists_through_cons hrest
    have happend := tokens_eq_extent_append c
    rw [htail, hreaches.through_append, ← List.append_assoc] at happend
    refine .inl ⟨token, more, ?_, by rw [hposition, Cursor.peek_of_tail_eq hrest]⟩
    rw [← List.append_cancel_right happend, hthrough]

/-- What an attempt that succeeds takes is all that belongs to it. -/
theorem extent_of_ok {tree : Stmt}
    (hresult : (ofCursor Table.standard.statement c).result = .ok tree) :
    (ofCursor Table.standard.statement c).extent =
      (ofCursor Table.standard.statement c).tokens := by
  rw [extent, tokens, last, hresult]

/-- An attempt that is not the last one ends with a token of the language. -/
theorem exists_legal_last (houtside : c.Outside)
    (hnext : (ofCursor Table.standard.statement c).next.tokens ≠ []) :
    ∃ init token, (ofCursor Table.standard.statement c).extent = init ++ [token] ∧
      token.kind ≠ .illegal := by
  cases hresult : (ofCursor Table.standard.statement c).result with
  | ok tree =>
    obtain ⟨⟨nesting, -, hderives⟩, -⟩ := derives_of_result rfl houtside hresult
    obtain ⟨init, htokens⟩ := exists_tokens_eq rfl houtside hresult
    refine ⟨init, _, (extent_of_ok hresult).trans htokens, ?_⟩
    exact hderives.contents.legal _ (by simp [htokens])
  | error diagnostic =>
    have hlast : (ofCursor Table.standard.statement c).last =
        (ofCursor Table.standard.statement c).stop.recover := by
      rw [last, hresult]
    have hleft : (ofCursor Table.standard.statement c).last.tokens ≠ [] := by
      intro hnil
      exact hnext (by rw [next, Cursor.tokens_advance, hnil, List.tail_nil])
    obtain ⟨init, hinit⟩ := (reaches_last Table.standard.statement c).exists_through hleft
    refine ⟨init, _, hinit, ?_⟩
    rw [hlast] at hleft ⊢
    rcases Cursor.kind_skipBroken _ (ofCursor Table.standard.statement c).stop with
      hnil | hkind | hkind
    · exact absurd hnil hleft
    · exact fun hillegal => Kind.noConfusion (hkind.symm.trans hillegal)
    · exact fun hillegal => Kind.noConfusion (hkind.symm.trans hillegal)

end Attempt

/-- The segments give the statements and the diagnostics, in order: each one gives the next
statement, which is derived from exactly its tokens, or the next diagnostic, which stands at one
of its tokens. The last one may give a diagnostic at the end of the input instead. -/
inductive Yields (finish : Position) :
    List (List Token) → List Stmt → List Diagnostic → Prop where
  | nil : Yields finish [] [] []
  | statement {segment : List Token} {segments : List (List Token)} {next : Kind} {tree : Stmt}
      {trees : List Stmt} {diagnostics : List Diagnostic} {nesting : Nat} :
      Derives (.stmt false next tree) segment nesting →
        Yields finish segments trees diagnostics →
          Yields finish (segment :: segments) (tree :: trees) diagnostics
  | refusal {segment : List Token} {segments : List (List Token)} {trees : List Stmt}
      {diagnostic : Diagnostic} {diagnostics : List Diagnostic} :
      (∃ token ∈ segment, diagnostic.position = token.position) ∨
        segments = [] ∧ diagnostic.position = finish →
        Yields finish segments trees diagnostics →
          Yields finish (segment :: segments) trees (diagnostic :: diagnostics)

/-- Every diagnostic stands at a token of a segment or at the end of the input. -/
theorem Yields.exists_position {finish : Position} {segments : List (List Token)}
    {trees : List Stmt} {diagnostics : List Diagnostic}
    (h : Yields finish segments trees diagnostics) {diagnostic : Diagnostic}
    (hmem : diagnostic ∈ diagnostics) :
    (∃ token ∈ segments.flatten, diagnostic.position = token.position) ∨
      diagnostic.position = finish := by
  induction h with
  | nil => contradiction
  | statement _ _ ih =>
    rcases ih hmem with ⟨token, htoken, hposition⟩ | hposition
    · exact .inl ⟨token, List.mem_append_right _ htoken, hposition⟩
    · exact .inr hposition
  | refusal hplace _ ih =>
    rcases List.mem_cons.mp hmem with rfl | hrest
    · rcases hplace with ⟨token, htoken, hposition⟩ | ⟨-, hposition⟩
      · exact .inl ⟨token, List.mem_append_left _ htoken, hposition⟩
      · exact .inr hposition
    · rcases ih hrest with ⟨token, htoken, hposition⟩ | hposition
      · exact .inl ⟨token, List.mem_append_right _ htoken, hposition⟩
      · exact .inr hposition

section Attempts

variable {c : Cursor}

/-- The tokens left are those that belong to the attempts made from there on. -/
theorem tokens_eq_flatten (c : Cursor) :
    c.tokens = ((attempts Table.standard.statement c).map Attempt.extent).flatten := by
  fun_induction attempts Table.standard.statement c with
  | case1 c hnil => exact hnil
  | case2 c hleft _ ih =>
    rw [List.map_cons, List.flatten_cons, ← ih]
    exact Attempt.tokens_eq_extent_append c

theorem extent_ne_nil_of_mem {attempt : Attempt}
    (hmem : attempt ∈ attempts Table.standard.statement c) : attempt.extent ≠ [] := by
  fun_induction attempts Table.standard.statement c with
  | case1 => contradiction
  | case2 c hleft _ ih =>
    rcases List.mem_cons.mp hmem with rfl | hrest
    · exact Attempt.extent_ne_nil hleft
    · exact ih hrest

/-- Each attempt gives the next statement or the next diagnostic. -/
theorem yields_attempts (houtside : c.tokens ≠ [] → c.Outside) :
    Yields c.finish ((attempts Table.standard.statement c).map Attempt.extent)
      (Attempt.program (attempts Table.standard.statement c)).statements
      (Attempt.diagnostics (attempts Table.standard.statement c)) := by
  fun_induction attempts Table.standard.statement c with
  | case1 => exact .nil
  | case2 c hleft _ ih =>
    have hrest := ih (Attempt.outside_next (houtside hleft))
    have hfinish : (Attempt.ofCursor Table.standard.statement c).next.finish = c.finish :=
      (Attempt.reaches_last Table.standard.statement c).advance.finish_eq
    rw [hfinish] at hrest
    cases hresult : (Attempt.ofCursor Table.standard.statement c).result with
    | ok tree =>
      obtain ⟨⟨nesting, -, hderives⟩, -⟩ :=
        Attempt.derives_of_result rfl (houtside hleft) hresult
      rw [← Attempt.extent_of_ok hresult] at hderives
      obtain ⟨hstatements, hdiagnostics⟩ := Attempt.cons_of_ok hresult
        (attempts Table.standard.statement (Attempt.ofCursor Table.standard.statement c).next)
      rw [hstatements, hdiagnostics]
      exact .statement hderives hrest
    | error diagnostic =>
      obtain ⟨tokens, -, hposition⟩ := Attempt.exists_extent_of_error (houtside hleft) hresult
      obtain ⟨hstatements, hdiagnostics⟩ := Attempt.cons_of_error hresult
        (attempts Table.standard.statement (Attempt.ofCursor Table.standard.statement c).next)
      rw [hstatements, hdiagnostics]
      refine .refusal ?_ hrest
      rcases hposition with ⟨token, rest, hextent, hposition⟩ | ⟨hnil, hposition⟩
      · exact .inl ⟨token, by simp [hextent], hposition⟩
      · exact .inr ⟨by rw [attempts_of_tokens_eq_nil hnil, List.map_nil], hposition⟩

end Attempts

/-- The lexer has the tokens of the cursor before it, and it stands between two characters of the
source if there are any. -/
structure Lexer.Serves (source : String) (file : Option String) (lexer : Lexer) (c : Cursor) :
    Prop where
  stands : c.tokens ≠ [] → lexer.Stands source file
  tokens_eq : c.tokens = lexer.content
  finish_eq : c.finish = lexer.finish

/-- What belongs to an attempt is drawn from the lexer, and then the next attempt is made. -/
theorem Lexer.Serves.exists_next {source : String} {file : Option String} {lexer : Lexer}
    {c : Cursor} (h : lexer.Serves source file c) (houtside : c.Outside) (hleft : c.tokens ≠ []) :
    ∃ stop : Lexer, lexer.Draws (Attempt.ofCursor Table.standard.statement c).extent stop ∧
      stop.Serves source file (Attempt.ofCursor Table.standard.statement c).next := by
  have hwhole := (Attempt.tokens_eq_extent_append c).symm.trans h.tokens_eq
  obtain ⟨stop, hdraws, hstop⟩ := exists_draws hwhole.symm
  obtain ⟨bytes, hpasses⟩ := hdraws.exists_passes
  refine ⟨stop, hdraws, fun hne => ?_, hstop.symm, ?_⟩
  · obtain ⟨init, token, hextent, hkind⟩ := Attempt.exists_legal_last houtside hne
    rw [hextent] at hdraws
    exact (h.stands hleft).of_draws hdraws hkind
  · rw [finish, hpasses.toEnd_eq, hpasses.file_eq]
    exact (Attempt.reaches_last Table.standard.statement c).advance.finish_eq.trans h.finish_eq

theorem Lexer.serves_ofString (source : String) (file : Option String) :
    (Lexer.ofString source file).Serves source file (.ofString source file) :=
  ⟨fun _ => .ofString source file, rfl, rfl⟩

/-- The diagnostic of an attempt stands between two characters of the source, before those that
belong to the next attempt. -/
theorem exists_offset_of_error {source : String} {file : Option String} {c : Cursor}
    {lexer stop : Lexer} {diagnostic : Diagnostic} (houtside : c.Outside)
    (hstands : lexer.Stands source file) (hfinish : c.finish = lexer.finish)
    (hdraws : lexer.Draws (Attempt.ofCursor Table.standard.statement c).extent stop)
    (hresult : (Attempt.ofCursor Table.standard.statement c).result = .error diagnostic) :
    ∃ offset, diagnostic.position = .atOffset offset lexer.file ∧ lexer.offset ≤ offset ∧
      String.Pos.Raw.IsValid source ⟨offset⟩ ∧
      ((Attempt.ofCursor Table.standard.statement c).next.tokens = [] ∨ offset < stop.offset) := by
  obtain ⟨tokens, hlegal, ⟨token, rest, hextent, hposition⟩ | ⟨hnil, hposition⟩⟩ :=
    Attempt.exists_extent_of_error houtside hresult
  · rw [hextent] at hdraws
    obtain ⟨start, htokens, hrest⟩ := hdraws.split
    cases hrest with
    | cons hnext hrest =>
      obtain ⟨bytes, hpasses⟩ := htokens.exists_passes
      obtain ⟨hstart, -, hle, hlt, -⟩ := Lexer.start_of_next? hnext
      have hbefore := htokens.offset_le
      have hafter := hrest.offset_le
      refine ⟨start.skipSeparators.offset, ?_, by omega, ?_, .inr (by omega)⟩
      · rw [hposition, hstart, hpasses.file_eq]
      · exact (hstands.of_draws_of_legal htokens hlegal).skipSeparators.isValid
  · refine ⟨lexer.toEnd.offset, ?_, Nat.le_add_right _ _, ?_, .inl hnil⟩
    · rw [hposition, hfinish, Lexer.finish]
    · rw [hstands.offset_toEnd]
      exact String.Pos.Raw.isValid_rawEndPos

/-- The diagnostics stand between two characters of the source, one after the other. -/
theorem exists_offsets_of_diagnostics {source : String} {file : Option String} {c : Cursor}
    {lexer : Lexer} (houtside : c.tokens ≠ [] → c.Outside) (h : lexer.Serves source file c) :
    ∃ offsets : List Nat,
      (Attempt.diagnostics (attempts Table.standard.statement c)).map Diagnostic.position =
        offsets.map (.atOffset · lexer.file) ∧
      offsets.Pairwise (· < ·) ∧
      ∀ offset ∈ offsets, lexer.offset ≤ offset ∧ String.Pos.Raw.IsValid source ⟨offset⟩ := by
  fun_induction attempts Table.standard.statement c generalizing lexer with
  | case1 => exact ⟨[], rfl, .nil, List.forall_mem_nil _⟩
  | case2 c hleft _ ih =>
    obtain ⟨stop, hdraws, hserves⟩ := h.exists_next (houtside hleft) hleft
    obtain ⟨bytes, hpasses⟩ := hdraws.exists_passes
    obtain ⟨offsets, hpositions, hincreasing, hbounds⟩ :=
      ih (Attempt.outside_next (houtside hleft)) hserves
    rw [hpasses.file_eq] at hpositions
    have hlater (offset : Nat) (hmem : offset ∈ offsets) :
        lexer.offset ≤ offset ∧ String.Pos.Raw.IsValid source ⟨offset⟩ := by
      obtain ⟨hle, hvalid⟩ := hbounds offset hmem
      exact ⟨Nat.le_trans hdraws.offset_le hle, hvalid⟩
    cases hresult : (Attempt.ofCursor Table.standard.statement c).result with
    | ok tree =>
      obtain ⟨-, hdiagnostics⟩ := Attempt.cons_of_ok hresult
        (attempts Table.standard.statement (Attempt.ofCursor Table.standard.statement c).next)
      rw [hdiagnostics]
      exact ⟨offsets, hpositions, hincreasing, hlater⟩
    | error diagnostic =>
      obtain ⟨-, hdiagnostics⟩ := Attempt.cons_of_error hresult
        (attempts Table.standard.statement (Attempt.ofCursor Table.standard.statement c).next)
      obtain ⟨offset, hposition, hle, hvalid, hlast⟩ :=
        exists_offset_of_error (houtside hleft) (h.stands hleft) h.finish_eq hdraws hresult
      refine ⟨offset :: offsets, ?_, ?_, List.forall_mem_cons.mpr ⟨⟨hle, hvalid⟩, hlater⟩⟩
      · rw [hdiagnostics, List.map_cons, List.map_cons, hpositions, hposition]
      · refine List.pairwise_cons.mpr ⟨fun other hmem => ?_, hincreasing⟩
        rcases hlast with hnil | hlt
        · rw [attempts_of_tokens_eq_nil hnil] at hpositions
          rw [List.map_eq_nil_iff.mp hpositions.symm] at hmem
          contradiction
        · exact Nat.lt_of_lt_of_le hlt (hbounds other hmem).1

namespace Position

variable {positions : List Position} {offsets : List Nat} {file : String}

/-- Offsets below the limit can be read off the positions. -/
theorem map_offset_eq (h : positions = offsets.map (.atOffset · file))
    (hle : ∀ offset ∈ offsets, offset ≤ maxOffset) : positions.map Position.offset = offsets := by
  rw [h, List.map_map]
  refine (List.map_congr_left fun offset hmem => ?_).trans (List.map_id offsets)
  exact offset_atOffset (hle offset hmem) file

/-- Offsets that increase are recorded as such, up to those that are recorded as the largest one. -/
theorem pairwise_offset (h : positions = offsets.map (.atOffset · file))
    (hincreasing : offsets.Pairwise (· < ·)) :
    (positions.map Position.offset).Pairwise fun first second =>
      first < second ∨ first = maxOffset ∧ second = maxOffset := by
  rw [h, List.map_map, List.pairwise_map]
  refine hincreasing.imp fun {first second} hlt => ?_
  simp only [Function.comp, atOffset]
  omega

end Position

/-- The tokens of a source stand at offsets that increase, the end of the input last. -/
theorem exists_offsets_of_tokenize (source : String) (file : Option String) :
    ∃ offsets : List Nat,
      (tokenize source file).map Token.position =
        offsets.map (.atOffset · (file.getD Lexer.defaultFile)) ∧
      offsets.Pairwise (· < ·) ∧ ∀ offset ∈ offsets, offset ≤ source.utf8ByteSize := by
  obtain ⟨offsets, hpositions, hincreasing, hbounds⟩ := (Lexer.ofString source file).exists_offsets
  have hend := (Lexer.Stands.ofString source file).offset_toEnd
  have hlt (offset : Nat) (hmem : offset ∈ offsets) : offset < source.utf8ByteSize :=
    hend ▸ (hbounds offset hmem).2
  refine ⟨offsets ++ [source.utf8ByteSize], ?_, ?_, ?_⟩
  · rw [tokenize, Lexer.tokens, List.map_append, hpositions, List.map_append, ← hend]
    rfl
  · refine List.pairwise_append.mpr ⟨hincreasing, List.pairwise_singleton _ _, ?_⟩
    exact fun offset hmem last hlast => List.mem_singleton.mp hlast ▸ hlt offset hmem
  · refine List.forall_mem_append.mpr ⟨fun offset hmem => Nat.le_of_lt (hlt offset hmem), ?_⟩
    exact List.forall_mem_singleton.mpr (Nat.le_refl _)

/-- In a source whose offsets are all recorded, every token and the end of the input have a position
of their own. -/
theorem nodup_positions {source : String} (hsize : source.utf8ByteSize ≤ Position.maxOffset)
    (file : Option String) : ((tokenize source file).map Token.position).Nodup := by
  obtain ⟨offsets, hpositions, hincreasing, hbounds⟩ := exists_offsets_of_tokenize source file
  refine List.Nodup.of_map Position.offset ?_
  rw [Position.map_offset_eq hpositions fun offset hmem => Nat.le_trans (hbounds offset hmem) hsize]
  exact hincreasing.imp Nat.ne_of_lt

/-- In a source whose offsets are all recorded, no token comes twice. -/
theorem nodup_content {source : String} (hsize : source.utf8ByteSize ≤ Position.maxOffset)
    (file : Option String) : (Lexer.ofString source file).content.Nodup :=
  ((nodup_positions hsize file).of_map _).of_append_left

/-- The tokens of a source fall into segments, one for each attempt to read a statement, and none
of them is empty. Each segment gives the next statement or the next diagnostic. The diagnostics
stand between characters of the source, one after the other. The recorded offsets increase with
them, but those beyond the largest one are all recorded as that one. If the source is not too long,
there are none such, and no token of a segment is in another one. -/
theorem segments_of_source (source : String) (file : Option String) :
    ((sourceAttempts source file).map Attempt.extent).flatten =
      (Lexer.ofString source file).content ∧
    (∀ attempt ∈ sourceAttempts source file, attempt.extent ≠ []) ∧
    Yields (Lexer.ofString source file).finish ((sourceAttempts source file).map Attempt.extent)
      (parse source file).1.statements (parse source file).2 ∧
    (parse source file).1.statements.length + (parse source file).2.length =
      (sourceAttempts source file).length ∧
    (∃ offsets : List Nat,
      (parse source file).2.map Diagnostic.position =
        offsets.map (.atOffset · (file.getD Lexer.defaultFile)) ∧
      offsets.Pairwise (· < ·) ∧
      ∀ offset ∈ offsets, String.Pos.Raw.IsValid source ⟨offset⟩) ∧
    ((parse source file).2.map fun diagnostic => diagnostic.position.offset).Pairwise
      (fun first second =>
        first < second ∨ first = Position.maxOffset ∧ second = Position.maxOffset) ∧
    (source.utf8ByteSize ≤ Position.maxOffset →
      ((parse source file).2.map fun diagnostic => diagnostic.position.offset).Pairwise (· < ·) ∧
      ((sourceAttempts source file).map Attempt.extent).Pairwise List.Disjoint) := by
  have houtside := Cursor.outside_ofString source file
  have hflatten := (tokens_eq_flatten (.ofString source file)).symm
  obtain ⟨offsets, hpositions, hincreasing, hbounds⟩ :=
    exists_offsets_of_diagnostics (fun _ => houtside) (Lexer.serves_ofString source file)
  have hrecorded := Position.pairwise_offset hpositions hincreasing
  rw [List.map_map] at hrecorded
  refine ⟨hflatten, fun attempt hmem => extent_ne_nil_of_mem hmem,
    yields_attempts fun _ => houtside, Attempt.length_program_add_length_diagnostics _,
    ⟨offsets, hpositions, hincreasing, fun offset hmem => (hbounds offset hmem).2⟩, hrecorded, ?_⟩
  intro hsize
  constructor
  · have hexact := Position.map_offset_eq hpositions fun offset hmem =>
      Nat.le_trans (hbounds offset hmem).2.le_rawEndPos hsize
    rw [List.map_map] at hexact
    exact hexact ▸ hincreasing
  · have hnodup := nodup_content hsize file
    rw [← show _ = (Lexer.ofString source file).content from hflatten] at hnodup
    exact (List.nodup_flatten.mp hnodup).2

/-- A name outside ASCII, a stray brace and the end of the input inside a call break three of four
segments, at three places one after the other. -/
theorem segments_of_source_of_unfinished :
    ∃ source : String, source.utf8ByteSize ≤ Position.maxOffset ∧
      (sourceAttempts source none).length = 4 ∧ (parse source none).1.statements.length = 1 ∧
      (parse source none).2.length = 3 ∧
      ((parse source none).2.map fun diagnostic => diagnostic.position.offset).Pairwise (· < ·) ∧
      ((sourceAttempts source none).map Attempt.extent).Pairwise List.Disjoint := by
  let source := "let é; \x7d return a b; c; fn("
  have hsize : source.utf8ByteSize ≤ Position.maxOffset := by decide +kernel
  have hstatements : (parse source none).1.statements.length = 1 := by decide +kernel
  have hdiagnostics : (parse source none).2.length = 3 := by decide +kernel
  obtain ⟨-, -, -, hcount, -, -, hexact⟩ := segments_of_source source none
  obtain ⟨hincreasing, hdisjoint⟩ := hexact hsize
  have hattempts : (sourceAttempts source none).length = 4 := by
    rw [← hcount, hstatements, hdiagnostics]
  exact ⟨source, hsize, hattempts, hstatements, hdiagnostics, hincreasing, hdisjoint⟩

/-- After as many spaces as there are offsets, two broken statements are recorded at one offset. -/
theorem not_increasing_of_padded :
    let source := padded ' ' Position.maxOffset ");)"
    (parse source none).2.map (fun diagnostic => diagnostic.position.offset) =
        [4294967295, 4294967295] ∧
      ¬ ((parse source none).2.map fun diagnostic => diagnostic.position.offset).Pairwise
        (· < ·) := by
  intro source
  have hparse : (parse source none).2 =
      (parse ");)" none).2.map (Diagnostic.relocate (.shift Position.maxOffset)) :=
    diagnostics_padded rfl rfl
  rw [hparse]
  decide +kernel

end LetScript
