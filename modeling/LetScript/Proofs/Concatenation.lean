import LetScript.Proofs.Layout
import LetScript.Proofs.Segments

/-!
# Sources one after the other

Where a source ends with a semicolon and no brace is open there, nothing that reading does looks
past this semicolon, whatever is broken before: a statement that is read ends there, and one that
is broken is skipped no further. So a source that goes on is read as the first part on its own,
and then as the second part on its own, further on.

Before the last semicolon the runs on the two sources see the same. There they are blind: the next
token is the end of the input for one of them, and the first token of the second part for the
other.
-/

namespace LetScript

/-- The count of open braces after the tokens, a closing brace without an opening one counting for
nothing. -/
def runningDepth (depth : Nat) (tokens : List Token) : Nat :=
  tokens.foldl (fun open_ token => token.kind.openBraces open_) depth

namespace Cursor

/-- The count of open braces runs along with the tokens taken. -/
theorem Takes.openBraces_eq_runningDepth {c stop : Cursor} {tokens : List Token}
    (h : c.Takes tokens stop) : stop.openBraces = runningDepth c.openBraces tokens := by
  induction h with
  | nil => rfl
  | @cons cursor _ token _ _ htail _ ih =>
    have hcount : cursor.advance.openBraces = token.kind.openBraces cursor.openBraces := by
      rw [← peek_of_tail_eq htail]
      rfl
    rw [ih, hcount]
    rfl

/-- No brace is open where the tokens end. -/
def Settles (c : Cursor) : Prop := runningDepth c.openBraces c.tokens.tail = 0

theorem Settles.advance {c : Cursor} (h : c.Settles) : c.advance.Settles := by
  rw [Settles, tokens_advance]
  cases htail : c.tokens.tail with
  | nil =>
    have hpeek : c.peek.kind = .eof := by simp [peek, htail, Token.endOfInput]
    rw [Cursor.advance, hpeek]
    rwa [Settles, htail] at h
  | cons token rest =>
    rw [Settles, htail] at h
    rwa [Cursor.advance, peek_of_tail_eq htail]

/-- Where no brace is open before the first token, the count starts there. -/
theorem Outside.settles_iff {c : Cursor} (h : c.Outside) :
    c.Settles ↔ runningDepth 0 c.tokens = 0 := by
  rw [Settles, h, current]
  cases c.tokens <;> rfl

theorem Settles.of_reaches {c stop : Cursor} (h : c.Settles) (hreaches : c.Reaches stop) :
    stop.Settles := by
  induction hreaches with
  | refl => exact h
  | advance _ ih => exact ih.advance

/-- The tokens left to the first cursor end with a semicolon, and `more` comes after them for the
second. -/
structure Continues (more : List Token) (c c' : Cursor) : Prop where
  openBraces : c'.openBraces = c.openBraces
  tokens : ∃ init semicolon, semicolon.kind = .semicolon ∧ c.tokens = init ++ [semicolon] ∧
    c'.tokens = init ++ semicolon :: more

/-- Nothing is left but a semicolon. -/
def AtLast (c : Cursor) : Prop := ∃ semicolon, semicolon.kind = .semicolon ∧ c.tokens = [semicolon]

namespace Continues

variable {more : List Token} {c c' : Cursor}

theorem tokens_ne_nil (h : c.Continues more c') : c.tokens ≠ [] := by
  obtain ⟨init, semicolon, -, htokens, -⟩ := h.tokens
  simp [htokens]

theorem tokens_ne_nil' (h : c.Continues more c') : c'.tokens ≠ [] := by
  obtain ⟨init, semicolon, -, -, htokens⟩ := h.tokens
  simp [htokens]

theorem current (h : c.Continues more c') : c'.current = c.current := by
  obtain ⟨init, semicolon, -, htokens, htokens'⟩ := h.tokens
  rw [Cursor.current, Cursor.current, htokens, htokens']
  cases init <;> rfl

/-- At the last semicolon, `more` is what comes. -/
theorem tail_of_atLast (h : c.Continues more c') (hlast : c.AtLast) : c'.tokens.tail = more := by
  obtain ⟨init, semicolon, -, htokens, htokens'⟩ := h.tokens
  obtain ⟨last, -, hone⟩ := hlast
  obtain rfl : init = [] := by
    cases init with
    | nil => rfl
    | cons token init => simp [htokens] at hone
  rw [htokens', List.nil_append, List.tail_cons]

/-- Before that, the next token is the same, and something is left after it. -/
theorem exists_tail (h : c.Continues more c') (hlast : ¬ c.AtLast) :
    ∃ front semicolon, semicolon.kind = .semicolon ∧ c.tokens.tail = front ++ [semicolon] ∧
      c'.tokens.tail = front ++ semicolon :: more := by
  obtain ⟨init, semicolon, hkind, htokens, htokens'⟩ := h.tokens
  cases init with
  | nil => exact absurd ⟨semicolon, hkind, htokens⟩ hlast
  | cons token front =>
    exact ⟨front, semicolon, hkind, by rw [htokens]; rfl, by rw [htokens']; rfl⟩

theorem peek (h : c.Continues more c') (hlast : ¬ c.AtLast) : c'.peek = c.peek := by
  obtain ⟨front, semicolon, -, htail, htail'⟩ := h.exists_tail hlast
  rw [Cursor.peek, Cursor.peek, htail, htail']
  cases front <;> rfl

theorem advance (h : c.Continues more c') (hlast : ¬ c.AtLast) :
    c.advance.Continues more c'.advance := by
  obtain ⟨front, semicolon, hkind, htail, htail'⟩ := h.exists_tail hlast
  refine ⟨?_, front, semicolon, hkind, htail, htail'⟩
  rw [Cursor.advance, Cursor.advance, h.peek hlast, h.openBraces]

end Continues

end Cursor

/-- What the runs on a source that ends with a semicolon and on one that goes on have in common. -/
def Simulation.continuing (more : List Token) : Simulation where
  relocation := .id
  near := Cursor.Continues more
  lost c := c.tokens = []
  blind := Cursor.AtLast
  turns failure failure' := failure'.1 = failure.1 ∧ failure.2.Continues more failure'.2
  lost_advance h := by rw [Cursor.tokens_advance, h, List.tail_nil]
  lost_of_blind h := by
    obtain ⟨semicolon, -, hone⟩ := h
    rw [Cursor.tokens_advance, hone, List.tail_cons]
  kind_of_blind h := by
    obtain ⟨semicolon, hkind, hone⟩ := h
    rw [Cursor.current, hone]
    exact hkind
  current h := h.current
  openBraces h := h.openBraces
  peek h _ hlast := h.peek hlast
  advance h _ hlast := h.advance hlast
  tokens_eq_nil h _ := iff_of_false h.tokens_ne_nil' h.tokens_ne_nil
  fails _ h := ⟨rfl, h⟩

namespace Cursor

variable {more : List Token} {c c' : Cursor}

/-- No brace is open at the last semicolon. -/
theorem Settles.openBraces_of_atLast (h : c.Settles) (hlast : c.AtLast) : c.openBraces = 0 := by
  obtain ⟨semicolon, -, hone⟩ := hlast
  rwa [Settles, hone] at h

/-- Skipping ends in both sources at the same token. -/
theorem Continues.skipBroken (h : c.Continues more c') (hsettles : c.Settles) (inside : Bool) :
    (c.skipBroken inside).Continues more (c'.skipBroken inside) := by
  have hcurrent {c c' : Cursor} {token : Token} {rest : List Token}
      (h : c.Continues more c') (htokens : c.tokens = token :: rest) :
      c'.current.kind = token.kind := by
    rw [h.current, Cursor.current, htokens]
    rfl
  have hsees {c : Cursor} {token : Token} {rest : List Token} (htokens : c.tokens = token :: rest)
      (hclose : token.kind = .closeCurly) : ¬ c.AtLast := by
    rintro ⟨semicolon, hkind, hone⟩
    rw [htokens] at hone
    obtain ⟨rfl, -⟩ := List.cons.inj hone
    exact Kind.noConfusion (hclose.symm.trans hkind)
  fun_induction Cursor.skipBroken inside c generalizing c' with
  | case1 c hnil => exact absurd hnil h.tokens_ne_nil
  | case2 c token rest htokens hends =>
    rw [skipBroken_of_semicolon (h.openBraces.trans hends.1) ((hcurrent h htokens).trans hends.2)]
    exact h
  | case3 c token rest htokens _ hends hpeek =>
    obtain ⟨hzero, rfl, hclose⟩ := hends
    have hnot := hsees htokens hclose
    rw [skipBroken_of_closeCurly (h.openBraces.trans hzero) ((hcurrent h htokens).trans hclose),
      if_pos (by rw [h.peek hnot, hpeek])]
    exact h.advance hnot
  | case4 c token rest htokens _ hends hpeek =>
    obtain ⟨hzero, rfl, hclose⟩ := hends
    rw [skipBroken_of_closeCurly (h.openBraces.trans hzero) ((hcurrent h htokens).trans hclose),
      if_neg (by rwa [h.peek (hsees htokens hclose)])]
    exact h
  | case5 c token rest htokens hsemicolon hclose _ ih =>
    -- The last semicolon is not skipped, since no brace is open there.
    have hnot : ¬ c.AtLast := by
      intro hlast
      have hzero := hsettles.openBraces_of_atLast hlast
      obtain ⟨semicolon, hkind, hone⟩ := hlast
      rw [htokens] at hone
      obtain ⟨rfl, -⟩ := List.cons.inj hone
      exact hsemicolon ⟨hzero, hkind⟩
    rw [skipBroken_of_not h.tokens_ne_nil' (by rwa [h.openBraces, hcurrent h htokens])
      (by rwa [h.openBraces, hcurrent h htokens])]
    exact ih (h.advance hnot) hsettles.advance

/-- Reading a statement does not go past a last semicolon outside all braces. -/
theorem Continues.tokens_stop_ne_nil (h : c.Continues more c') (houtside : c.Outside)
    (hsettles : c.Settles) : (Table.standard.statement.run c).2.tokens ≠ [] := by
  intro hnil
  obtain ⟨init, semicolon, hkind, htokens, -⟩ := h.tokens
  rcases hrun : Table.standard.statement.run c with ⟨result, stop⟩
  rw [hrun] at hnil
  rw [houtside.eq_advance] at hrun
  obtain ⟨tokens, between, htakes, hunfinished, hstop⟩ := Table.exists_stop_of_statement hrun
  have hleft : between.tokens ≠ [] := by
    rcases List.eq_nil_or_concat' tokens with rfl | ⟨front, last, rfl⟩
    · cases htakes
      exact List.cons_ne_nil _ _
    · exact htakes.tokens_eq ▸ List.cons_ne_nil _ _
  have htail : between.tokens.tail = [] := by
    rcases hstop with rfl | rfl
    · exact absurd hnil hleft
    · exact hnil
  -- So all tokens are taken, and the last of them is a semicolon outside all braces.
  obtain rfl : init ++ [semicolon] = tokens := by
    have hall := htakes.tail_eq
    rw [htail, List.append_nil] at hall
    exact htokens.symm.trans hall
  refine htakes.openBraces_ne_zero rfl hunfinished hkind ?_
  rw [htakes.openBraces_eq_runningDepth, ← htokens]
  exact houtside.settles_iff.mp hsettles

end Cursor

/-- The attempts that are made at the same place of both sources come to the same result, and end
at the same token. -/
theorem Attempt.continues {more : List Token} {c c' : Cursor} (h : c.Continues more c')
    (houtside : c.Outside) (hsettles : c.Settles) :
    (ofCursor Table.standard.statement c').result = (ofCursor Table.standard.statement c).result ∧
      (ofCursor Table.standard.statement c).last.Continues more
        (ofCursor Table.standard.statement c').last := by
  have hends := Table.follows_statement (.continuing more) c c' h trivial
  have hleft := h.tokens_stop_ne_nil houtside hsettles
  have hreaches := Table.standard.statement.reaches c
  simp only [ofCursor]
  generalize Table.standard.statement.run c = outcome at hends hleft hreaches
  generalize Table.standard.statement.run c' = outcome' at hends
  cases hends with
  | lost hlost => exact absurd hlost hleft
  | ok tree hstop _ => exact ⟨congrArg Except.ok (Stmt.relocate_id tree), hstop⟩
  | error hturns =>
    obtain ⟨hdiagnostic, hstop⟩ := hturns
    refine ⟨congrArg Except.error hdiagnostic, ?_⟩
    have hskipped := hstop.skipBroken (hsettles.of_reaches hreaches)
    simp only [last, Cursor.recover]
    rw [hstop.openBraces]
    exact hskipped _

/-- The source that goes on is read as its first part and then from the first token of the second
part on. -/
theorem results_of_continues {more : List Token} {c c' : Cursor} (h : c.Continues more c')
    (houtside : c.Outside) (hsettles : c.Settles) :
    (attempts Table.standard.statement c').map Attempt.result =
      (attempts Table.standard.statement c ++
        attempts Table.standard.statement (.ofTokens more c'.finish)).map Attempt.result := by
  fun_induction attempts Table.standard.statement c generalizing c' with
  | case1 c hnil => exact absurd hnil h.tokens_ne_nil
  | case2 c hleft _ ih =>
    obtain ⟨hresult, hlast⟩ := Attempt.continues h houtside hsettles
    have hfinish : (Attempt.ofCursor Table.standard.statement c').next.finish = c'.finish :=
      (Attempt.reaches_last Table.standard.statement c').advance.finish_eq
    have hsettled : (Attempt.ofCursor Table.standard.statement c).last.Settles :=
      hsettles.of_reaches (Attempt.reaches_last Table.standard.statement c)
    rw [attempts_of_tokens_ne_nil h.tokens_ne_nil', List.map_cons, hresult, List.cons_append,
      List.map_cons]
    congr 1
    -- At the last semicolon `more` is all that is left to the second source; before it the next
    -- attempts are made side by side again.
    by_cases hblind : (Attempt.ofCursor Table.standard.statement c).last.AtLast
    · have hzero := hlast.openBraces.trans (hsettled.openBraces_of_atLast hblind)
      have hmore : (Attempt.ofCursor Table.standard.statement c').next.tokens = more :=
        hlast.tail_of_atLast hblind
      have hnil : (Attempt.ofCursor Table.standard.statement c).next.tokens = [] := by
        obtain ⟨semicolon, -, hone⟩ := hblind
        rw [Attempt.next, Cursor.tokens_advance, hone, List.tail_cons]
      rw [attempts_of_tokens_eq_nil hnil, List.nil_append]
      exact congrArg _ (attempts_congr (c := .ofTokens more c'.finish) (fun _ => rfl)
        (fun _ => Cursor.outside_advance hzero) hmore hfinish)
    · have hnext := hlast.advance hblind
      rw [← hfinish]
      exact ih hnext (Attempt.outside_next houtside hnext.tokens_ne_nil) hsettled.advance

/-- Moves everything `count` bytes further on, however far that is. -/
def Relocation.translate (count : Nat) : Relocation :=
  .ofPosition fun position => ⟨position.offset + count, position.file⟩

section Append

variable {first second : String} {file : Option String}

/-- As long as all offsets are recorded, the second of two sources is the same source further
on. -/
theorem position_translate (hsize : (first ++ second).utf8ByteSize ≤ Position.maxOffset) :
    ∀ offset ≤ (Lexer.ofString second file).toEnd.offset,
      (Relocation.translate first.utf8ByteSize).position
          (.atOffset offset (Lexer.ofString second file).file) =
        .atOffset (offset + first.utf8ByteSize) (Lexer.ofString second file).file := by
  intro offset hle
  rw [(Lexer.Stands.ofString second file).offset_toEnd] at hle
  rw [String.utf8ByteSize_append, Position.maxOffset] at hsize
  simp only [Relocation.translate, Relocation.ofPosition, Position.atOffset, Position.mk.injEq,
    and_true, Position.maxOffset]
  omega

/-- The whole goes on with the bytes of the second source. -/
theorem Lexer.ofString_append (first second : String) (file : Option String) :
    ofString (first ++ second) file = (ofString first file).followed (Utf8.encode second) := by
  rw [ofString, Utf8.encode_append]
  rfl

/-- Where the first source ends the second one starts, as many bytes further on. -/
theorem Lexer.followed_toEnd_ofString (first second : String) (file : Option String) :
    (ofString first file).toEnd.followed (Utf8.encode second) =
      (ofString second file).moved first.utf8ByteSize := by
  simp [ofString, toEnd, skip, followed, moved, Utf8.length_encode]

/-- The tokens of both sources come one after the other. -/
theorem content_append (file : Option String) (hends : (Utf8.encode first).getLast? = some 0x3b)
    (hsize : (first ++ second).utf8ByteSize ≤ Position.maxOffset) :
    ∃ init semicolon, (Lexer.ofString first file).content = init ++ [semicolon] ∧
      semicolon.kind = .semicolon ∧
      (Lexer.ofString (first ++ second) file).content = init ++ semicolon ::
        (Lexer.ofString second file).content.map
          (Token.relocate (.translate first.utf8ByteSize)) := by
  have hlast : (Lexer.ofString first file).rest.getLast? = some 0x3b := hends
  obtain ⟨init, semicolon, hfirst, hkind, hfollowed⟩ :=
    Lexer.content_followed hlast (Utf8.encode second)
  refine ⟨init, semicolon, hfirst, hkind, ?_⟩
  rw [Lexer.ofString_append, hfollowed, hfirst, Lexer.followed_toEnd_ofString,
    Lexer.content_moved (position_translate hsize), List.append_assoc]
  rfl

theorem finish_append (hsize : (first ++ second).utf8ByteSize ≤ Position.maxOffset) :
    (Lexer.ofString (first ++ second) file).finish =
      (Relocation.translate first.utf8ByteSize).position (Lexer.ofString second file).finish := by
  rw [Lexer.finish, Lexer.finish, position_translate hsize _ (Nat.le_refl _),
    (Lexer.Stands.ofString second file).offset_toEnd,
    (Lexer.Stands.ofString (first ++ second) file).offset_toEnd, String.utf8ByteSize_append,
    Nat.add_comm]
  rfl

/-- A source that ends with a semicolon outside all braces and one that comes after it are read as
each of them on its own, whatever is broken in them: the statements of the one are followed by
those of the other, and so are the diagnostics. -/
theorem parse_append (hends : (Utf8.encode first).getLast? = some 0x3b)
    (hdepth : runningDepth 0 (Lexer.ofString first file).content = 0)
    (hsize : (first ++ second).utf8ByteSize ≤ Position.maxOffset) :
    (parse (first ++ second) file).1.statements =
        (parse first file).1.statements ++
          (parse second file).1.statements.map (Stmt.relocate (.translate first.utf8ByteSize)) ∧
      (parse (first ++ second) file).2 =
        (parse first file).2 ++
          (parse second file).2.map (Diagnostic.relocate (.translate first.utf8ByteSize)) := by
  obtain ⟨init, semicolon, hfirst, hkind, hwhole⟩ :=
    content_append file hends hsize
  have hcontinues : (Cursor.ofString first file).Continues
      ((Lexer.ofString second file).content.map (Token.relocate (.translate first.utf8ByteSize)))
      (.ofString (first ++ second) file) := by
    refine ⟨?_, init, semicolon, hkind, hfirst, hwhole⟩
    simp only [Cursor.ofString, Cursor.ofLexer, Cursor.ofTokens, hfirst, hwhole]
    cases init <;> rfl
  have houtside := Cursor.outside_ofString first file
  have hresults := results_of_continues hcontinues houtside (houtside.settles_iff.mpr hdepth)
  have hsecond : Cursor.ofTokens
      ((Lexer.ofString second file).content.map (Token.relocate (.translate first.utf8ByteSize)))
      (Cursor.ofString (first ++ second) file).finish =
        (Cursor.ofString second file).relocate (.translate first.utf8ByteSize) := by
    rw [Cursor.ofString, Cursor.ofString, Cursor.ofLexer, Cursor.ofLexer, Cursor.ofTokens_relocate,
      ← finish_append hsize]
    rfl
  rw [hsecond, attempts_relocate] at hresults
  obtain ⟨hprogram, hdiagnostics⟩ := Attempt.congr_of_results hresults
  constructor
  · refine (congrArg Program.statements hprogram).trans ?_
    rw [Attempt.statements_program_append, Attempt.statements_program_relocate]
    rfl
  · refine hdiagnostics.trans ?_
    rw [Attempt.diagnostics_append, Attempt.diagnostics_relocate]
    rfl

/-- Two broken sources that are read one after the other give the diagnostics of both. -/
theorem parse_append_of_broken :
    ∃ first second, (Utf8.encode first).getLast? = some 0x3b ∧
      runningDepth 0 (Lexer.ofString first none).content = 0 ∧
      (parse (first ++ second) none).2 = (parse first none).2 ++
        (parse second none).2.map (Diagnostic.relocate (.translate first.utf8ByteSize)) ∧
      (parse first none).2.length = 3 ∧ (parse second none).2.length = 1 := by
  let broken := "\x7d let 1; f(\x7b é; \x7d);"
  let more := "y; )"
  have hends : (Utf8.encode broken).getLast? = some 0x3b := by decide +kernel
  have hdepth : runningDepth 0 (Lexer.ofString broken none).content = 0 := by decide +kernel
  have hsize : (broken ++ more).utf8ByteSize ≤ Position.maxOffset := by decide +kernel
  obtain ⟨-, hdiagnostics⟩ := parse_append hends hdepth hsize
  exact ⟨broken, more, hends, hdepth, hdiagnostics, by decide +kernel, by decide +kernel⟩

end Append

end LetScript
