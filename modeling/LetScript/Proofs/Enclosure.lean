import LetScript.Proofs.Segments
import LetScript.Proofs.Shifting
import LetScript.Proofs.Transport

/-!
# A source as the body of a function

A source without diagnostics may be put into the body of a function: its statements are those of
the block, further on. The expression of the function and the block each open a frame around all
others, so this fails where a source leaves less than two levels free. It then fails as a whole:
no statement outside all braces ends before the last closing one, so everything belongs to the
attempt that is refused for the depth of its nesting.

The frames that are open at once while a source is read are the levels that reading it takes: it
gives no diagnostic with that many, and one with fewer.
-/

namespace LetScript

/-- The source as the body of a function without parameters. -/
def around (source : String) : String := "fn() \x7b " ++ source ++ " \x7d"

namespace Lexer

/-- The tokens before the body of the function. -/
theorem content_front (name : String) :
    (Lexer.mk name 0 [0x66, 0x6e, 0x28, 0x29, 0x20, 0x7b]).content =
      [⟨.kwFn, "fn", .ofLength 0 2 name⟩, ⟨.openParen, "(", .ofLength 2 1 name⟩,
        ⟨.closeParen, ")", .ofLength 3 1 name⟩, ⟨.openCurly, "\x7b", .ofLength 5 1 name⟩] := by
  have hkw : (Lexer.mk name 0 [0x66, 0x6e, 0x28, 0x29, 0x20, 0x7b]).next? =
      some (⟨.kwFn, "fn", .ofLength 0 2 name⟩, ⟨name, 2, [0x28, 0x29, 0x20, 0x7b]⟩) := rfl
  have hopening : (Lexer.mk name 2 [0x28, 0x29, 0x20, 0x7b]).next? =
      some (⟨.openParen, "(", .ofLength 2 1 name⟩, ⟨name, 3, [0x29, 0x20, 0x7b]⟩) := rfl
  have hclosing : (Lexer.mk name 3 [0x29, 0x20, 0x7b]).next? =
      some (⟨.closeParen, ")", .ofLength 3 1 name⟩, ⟨name, 4, [0x20, 0x7b]⟩) := rfl
  have hbrace : (Lexer.mk name 4 [0x20, 0x7b]).next? =
      some (⟨.openCurly, "\x7b", .ofLength 5 1 name⟩, ⟨name, 6, []⟩) := rfl
  have hend : (Lexer.mk name 6 []).next? = none := rfl
  rw [content_of_next? hkw, content_of_next? hopening, content_of_next? hclosing,
    content_of_next? hbrace, content_of_next?_eq_none hend]

/-- The token after the body of the function. -/
theorem content_back (name : String) (offset : Nat) :
    (Lexer.mk name offset [0x20, 0x7d]).content =
      [⟨.closeCurly, "\x7d", .ofLength (offset + 1) 1 name⟩] := by
  have hlast : (Lexer.mk name offset [0x20, 0x7d]).next? =
      some (⟨.closeCurly, "\x7d", .ofLength (offset + 1) 1 name⟩, ⟨name, offset + 2, []⟩) := rfl
  have hend : (Lexer.mk name (offset + 2) []).next? = none := rfl
  rw [content_of_next? hlast, content_of_next?_eq_none hend]

/-- The source stands between the tokens of the function, further on. -/
theorem content_around (source : String) (file : Option String) :
    (Lexer.ofString (around source) file).content =
      [⟨.kwFn, "fn", .ofLength 0 2 (file.getD defaultFile)⟩,
        ⟨.openParen, "(", .ofLength 2 1 (file.getD defaultFile)⟩,
        ⟨.closeParen, ")", .ofLength 3 1 (file.getD defaultFile)⟩] ++
        ⟨.openCurly, "\x7b", .ofLength 5 1 (file.getD defaultFile)⟩ ::
          ((Lexer.ofString source file).content.map (Token.relocate (.shift 7)) ++
            [⟨.closeCurly, "\x7d",
              .ofLength (source.utf8ByteSize + 8) 1 (file.getD defaultFile)⟩]) := by
  have hbytes : Utf8.encode (around source) =
      [0x66, 0x6e, 0x28, 0x29, 0x20, 0x7b] ++ 0x20 :: (Utf8.encode source ++ [0x20, 0x7d]) := by
    have hfront : Utf8.encode "fn() \x7b " = [0x66, 0x6e, 0x28, 0x29, 0x20, 0x7b, 0x20] := by
      decide +kernel
    have hback : Utf8.encode " \x7d" = [0x20, 0x7d] := by decide +kernel
    rw [around, Utf8.encode_append, Utf8.encode_append, hfront, hback]
    simp
  have hwhole : Lexer.ofString (around source) file =
      (Lexer.mk (file.getD defaultFile) 0 [0x66, 0x6e, 0x28, 0x29, 0x20, 0x7b]).followed
        (0x20 :: (Utf8.encode source ++ [0x20, 0x7d])) := by
    rw [Lexer.ofString, hbytes]
    rfl
  -- After the space the source itself is left, seven bytes further on.
  have hbody : (Lexer.mk (file.getD defaultFile) 6
      (0x20 :: (Utf8.encode source ++ [0x20, 0x7d]))).content =
      (Lexer.ofString source file).content.map (Token.relocate (.shift 7)) ++
        (((Lexer.ofString source file).moved 7).toEnd.followed [0x20, 0x7d]).content := by
    rw [content_of_separators (List.forall_mem_singleton.mpr (rfl : isSeparator 0x20)) rfl]
    have hmoved := content_followed_of_separator ((Lexer.ofString source file).moved 7) [0x7d]
      (rfl : isSeparator 0x20)
    rw [content_moved fun offset _ => Position.shift_atOffset 7 offset _] at hmoved
    exact hmoved
  have hlast : ((Lexer.ofString source file).moved 7).toEnd.followed [0x20, 0x7d] =
      Lexer.mk (file.getD defaultFile) (source.utf8ByteSize + 7) [0x20, 0x7d] := by
    simp [toEnd, followed, moved, skip, Lexer.ofString, Utf8.length_encode, Nat.add_comm]
  rw [hlast, content_back] at hbody
  rw [hwhole, content_followed_of_separator _ _ rfl, content_front]
  exact congrArg (_ :: _ :: _ :: _ :: ·) hbody

end Lexer

namespace Cursor

/-- What advancing passes is taken, unless it comes to the end of the input. -/
theorem Reaches.exists_takes {c stop : Cursor} (h : c.Reaches stop) (hleft : stop.tokens ≠ []) :
    ∃ taken, c.Takes taken stop := by
  induction h with
  | refl => exact ⟨[], .nil _⟩
  | advance _ ih =>
    obtain ⟨token, rest, htail⟩ := List.exists_cons_of_ne_nil hleft
    obtain ⟨taken, htaken⟩ := ih fun hnil => hleft (by rw [tokens_advance, hnil, List.tail_nil])
    exact ⟨taken ++ [token], htaken.append (.cons htail (.nil _))⟩

/-- In tokens that end with the block that they open, no brace is open again before the end. -/
theorem Takes.tail_eq_nil_of_enclosed {c stop : Cursor} {front inner taken : List Token}
    {opening closing : Token} (hfront : ∀ token ∈ front, token.kind.Plain)
    (hopen : opening.kind = .openCurly) (hinner : Balanced inner)
    (htail : c.tokens.tail = front ++ opening :: (inner ++ [closing]))
    (htakes : c.Takes taken stop) (hne : taken ≠ []) (hzero : c.openBraces = 0)
    (hclosed : stop.openBraces = 0)
    (hends : stop.current.kind = .semicolon ∨ stop.current.kind = .closeCurly) :
    stop.tokens.tail = [] := by
  by_contra hleft
  obtain ⟨init, last, rfl⟩ := (List.eq_nil_or_concat' taken).resolve_left hne
  obtain ⟨rest, ending, hrest⟩ := (List.eq_nil_or_concat' stop.tokens.tail).resolve_left hleft
  have hlast : stop.current = last := by
    rw [current, htakes.tokens_eq]
    rfl
  rw [hlast] at hends
  have hnot : last ∉ front := by
    intro hmem
    obtain ⟨-, -, -, hclose, hsemicolon⟩ := hfront last hmem
    exact hends.elim hsemicolon hclose
  have hsplit : init ++ [last] ++ rest = front ++ opening :: inner := by
    have hwhole := htakes.tail_eq.symm.trans htail
    rw [hrest, ← List.append_assoc, ← List.cons_append, ← List.append_assoc] at hwhole
    exact (List.append_inj' hwhole rfl).1
  rcases List.append_eq_append_iff.mp hsplit with ⟨more, rfl, -⟩ | ⟨more, hmore, hinside⟩
  · simp at hnot
  · cases more with
    | nil =>
      rw [List.append_nil] at hmore
      exact hnot (hmore ▸ by simp)
    | cons token more =>
      -- The opening brace is taken, and what is taken after it does not close it.
      obtain ⟨rfl, rfl⟩ := List.cons.inj hinside
      have hguarded : Guarded more := hinner.guarded.of_prefix ⟨rest, rfl⟩
      have hbalanced := (Clause.of_plain hfront).balanced
      rw [hmore] at htakes
      exact hguarded.not_balanced_opened front hopen
        (htakes.balanced_of_guarded (hbalanced.append_guarded (hguarded.opened hopen)) hzero
          hclosed)

end Cursor

/-- An attempt that fails belongs to all the tokens, if these end with the block that they open. -/
theorem attempts_of_enclosed {c stop : Cursor} {diagnostic : Diagnostic}
    {front inner : List Token} {opening closing : Token}
    (hfront : ∀ token ∈ front, token.kind.Plain) (hopen : opening.kind = .openCurly)
    (hinner : Balanced inner) (htail : c.tokens.tail = front ++ opening :: (inner ++ [closing]))
    (hzero : c.openBraces = 0)
    (hrun : Table.standard.statement.run c.advance = (.error diagnostic, stop)) :
    attempts Table.standard.statement c.advance = [⟨c.advance, .error diagnostic, stop⟩] := by
  have hleft : c.advance.tokens ≠ [] := by simp [htail]
  rw [attempts_eq_cons hleft hrun, attempts_of_tokens_eq_nil]
  have hreaches : c.advance.Reaches stop.recover := by
    have hstop := Table.standard.statement.reaches c.advance
    rw [hrun] at hstop
    exact hstop.trans (Cursor.reaches_skipBroken _ _)
  change stop.recover.tokens.tail = []
  by_cases hnil : stop.recover.tokens = []
  · rw [hnil, List.tail_nil]
  · obtain ⟨taken, htakes⟩ := (Cursor.Reaches.ofAdvance hreaches).exists_takes hnil
    have hne := htakes.ne_nil_of_reaches (fun h => hleft (by simp [h])) hreaches
    refine htakes.tail_eq_nil_of_enclosed hfront hopen hinner htail hne hzero ?_ ?_
    · exact (Cursor.openBraces_skipBroken _ stop).resolve_right hnil
    · exact (Cursor.kind_skipBroken _ stop).resolve_left hnil

/-- A source that is a single statement and ends with the block that it opens is refused as a
whole if the statement is nested too deeply. -/
theorem parse_of_enclosed {source : String} {file : Option String} {front inner : List Token}
    {opening closing : Token} (hfront : ∀ token ∈ front, token.kind.Plain)
    (hopen : opening.kind = .openCurly) (hinner : Balanced inner)
    (hcontent : (Lexer.ofString source file).content = front ++ opening :: (inner ++ [closing]))
    {tree : Stmt} {nesting : Nat}
    (h : Derives (.stmt false .eof tree) (Lexer.ofString source file).content nesting)
    (hdeep : nestingLimit < nesting) :
    ∃ position, parse source file = (⟨[]⟩, [⟨.nestingTooDeep nestingLimit, position⟩]) := by
  let c : Cursor :=
    .before (Lexer.ofString source file).content (Lexer.ofString source file).finish 0
  obtain ⟨stop, htakes, hstop⟩ :=
    Cursor.Takes.exists_of_tail_eq (List.append_nil c.tokens.tail).symm
  have hnext : stop.peek.kind = .eof := by
    rw [stop.peek_kind_eq_firstKind, hstop, firstKind_nil]
  have hgives := gives_statement h htakes hnext (by decide) rfl
  generalize hrun : Table.standard.statement.run c.advance = outcome at hgives
  cases hgives with
  | good hle => exact absurd hle (Nat.not_le.mpr hdeep)
  | @tooDeep diagnostic last _ hcause =>
    obtain ⟨cause, position⟩ := diagnostic
    obtain rfl : cause = .nestingTooDeep nestingLimit := hcause
    have hone := attempts_of_enclosed (c := c) hfront hopen hinner hcontent rfl hrun
    exact ⟨position,
      congrArg (fun found => (Attempt.program found, Attempt.diagnostics found)) hone⟩

/-- A source without diagnostics has them with fewer levels than frames are open at once, and with
no others. -/
theorem diagnostics_level_iff {source : String} {file : Option String} {trees : List Stmt}
    {frames : Nat}
    (h : Derives (.stmts false .eof trees) (Lexer.ofString source file).content frames)
    (levels : Nat) :
    Attempt.diagnostics
      (attempts (Table.standard.level levels).readStmt (.ofString source file)) = [] ↔
      frames ≤ levels := by
  obtain ⟨hfits, hdeep⟩ := attempts_level_of_derives levels h
    (c := .before _ (Lexer.ofString source file).finish 0) rfl rfl
  constructor
  · intro hnone
    by_contra hlt
    obtain ⟨first, rest, hsome, -⟩ := hdeep (Nat.not_le.mp hlt)
    exact List.cons_ne_nil first rest (hsome.symm.trans hnone)
  · intro hle
    exact (hfits hle).2

/-- A function without parameters opens one frame around its block, which opens another. -/
theorem derives_function {kw opening closing brace last : Token} (hkw : kw.kind = .kwFn)
    (hopening : opening.kind = .openParen) (hclosing : closing.kind = .closeParen)
    (hbrace : brace.kind = .openCurly) (hlast : last.kind = .closeCurly) {trees : List Stmt}
    {tokens : List Token} {frames : Nat}
    (h : Derives (.stmts true .closeCurly trees) tokens frames) :
    Derives (.stmt false .eof (.expression kw (.function kw [] ⟨brace, trees⟩)))
      ([kw, opening, closing] ++ brace :: (tokens ++ [last])) (frames + 2) := by
  have hfunction : Derives (.expr .primary (.function kw [] ⟨brace, trees⟩))
      (kw :: opening :: ([] ++ closing :: (brace :: (tokens ++ [last])))) (frames + 1) :=
    .function hkw hopening .none hclosing (.block hbrace h hlast)
  have hend : LooseEnd .eof [] := .nothing (Table.power_le_lowest_iff.mp (by decide))
  simpa using Derives.expression (hfunction.weaken (by decide)) hend

/-- The statement that the statements of a source make up as the body of a function. -/
def functionAround (file : Option String) (trees : List Stmt) : Stmt :=
  let kw : Token := ⟨.kwFn, "fn", .ofLength 0 2 (file.getD Lexer.defaultFile)⟩
  let brace : Token := ⟨.openCurly, "\x7b", .ofLength 5 1 (file.getD Lexer.defaultFile)⟩
  .expression kw (.function kw [] ⟨brace, trees.map (Stmt.relocate (.shift 7))⟩)

/-- A source without diagnostics is the body of a function, with the same statements further on,
if two levels are left free where most frames are open at once. Otherwise it is refused as a whole
for the depth of its nesting. -/
theorem parse_around {source : String} {file : Option String} (h : (parse source file).2 = []) :
    ∃ frames,
      Derives (.stmts false .eof (parse source file).1.statements)
        (Lexer.ofString source file).content frames ∧
      (∀ levels, Attempt.diagnostics
        (attempts (Table.standard.level levels).readStmt (.ofString source file)) = [] ↔
          frames ≤ levels) ∧
      (frames ≤ 98 → parse (around source) file =
        (⟨[functionAround file (parse source file).1.statements]⟩, [])) ∧
      (98 < frames → ∃ position,
        parse (around source) file = (⟨[]⟩, [⟨.nestingTooDeep nestingLimit, position⟩])) := by
  obtain ⟨frames, -, hderives⟩ :=
    derives_of_attempts (fun _ => Cursor.outside_ofString source file) h
  have hbody : Derives
      (.stmts true .closeCurly ((parse source file).1.statements.map (Stmt.relocate (.shift 7))))
      ((Lexer.ofString source file).content.map (Token.relocate (.shift 7))) frames :=
    hderives.relocate.stmts_closed
  have hcontent := Lexer.content_around source file
  have hstmt : Derives
      (.stmt false .eof (functionAround file (parse source file).1.statements))
      (Lexer.ofString (around source) file).content (frames + 2) := by
    rw [hcontent]
    exact derives_function rfl rfl rfl rfl rfl hbody
  refine ⟨frames, hderives, diagnostics_level_iff hderives, fun hle => ?_, fun hlt => ?_⟩
  · have hwhole : Derives
        (.stmts false .eof [functionAround file (parse source file).1.statements])
        ((Lexer.ofString (around source) file).content ++ []) (max (frames + 2) 0) :=
      .moreStmts hstmt .noStmts
    rw [List.append_nil] at hwhole
    exact (parse_of_derives hwhole).1 (Nat.max_le.mpr ⟨Nat.add_le_add_right hle 2, Nat.zero_le _⟩)
  · refine parse_of_enclosed ?_ rfl hbody.balanced hcontent hstmt (Nat.add_lt_add_right hlt 2)
    simp

/-- The last binding has no semicolon, neither before the end of the input nor before the brace. -/
theorem parse_around_bindings :
    (parse "let a = 1; let b = fn(x) { x }" none).2 = [] ∧
      parse (around "let a = 1; let b = fn(x) { x }") none =
        (⟨[functionAround none (parse "let a = 1; let b = fn(x) { x }" none).1.statements]⟩,
          []) := by
  have hnone : (parse "let a = 1; let b = fn(x) { x }" none).2 = [] := by decide +kernel
  obtain ⟨frames, -, hframes, hfits, -⟩ := parse_around hnone
  have hle : frames ≤ 98 := (hframes 98).mp (by decide +kernel)
  exact ⟨hnone, hfits hle⟩

end LetScript
