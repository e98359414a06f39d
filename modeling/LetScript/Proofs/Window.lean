import LetScript.Proofs.Concatenation
import LetScript.Proofs.Skipping
import LetScript.Proofs.Spelling
import Mathlib.Data.List.Infix
import Mathlib.Logic.Function.Iterate

/-!
# Two tokens of a lexer that is read on demand

A window holds the current token and the next one, both drawn from a lexer, and draws one more
whenever it moves on. It never sees the tokens after these, while a cursor has all of them. The two
agree: a window that was drawn shows the front of what a cursor holds, wherever advancing comes to
and at the end of the input as well, which is drawn again and again.

What a window counts of the braces is how many are left open when each closing brace is matched
with the nearest opening one before it that is not matched yet. Those are the opening braces whose
closing one does not come.
-/

namespace LetScript

/-- The opening braces that are left when each closing one takes away the last of them, if there is
any, the last one first. -/
def unmatched (left : List Token) : List Token → List Token
  | [] => left
  | token :: rest =>
    if token.kind = .openCurly then unmatched (token :: left) rest
    else if token.kind = .closeCurly then unmatched left.tail rest
    else unmatched left rest

/-- How many opening braces there are whose closing brace does not come. -/
def unclosed (tokens : List Token) : Nat :=
  tokens.tails.countP fun rest => firstKind rest .eof = .openCurly ∧ closingFrom 0 rest = none

/-- How many closing braces find no opening one before them. -/
def strays : List Token → Nat
  | [] => 0
  | token :: rest =>
    if token.kind = .openCurly then strays rest - 1
    else if token.kind = .closeCurly then strays rest + 1
    else strays rest

/-- The count of open braces is that of the unmatched ones. -/
theorem length_unmatched (left tokens : List Token) :
    (unmatched left tokens).length = runningDepth left.length tokens := by
  induction tokens generalizing left with
  | nil => rfl
  | cons token rest ih =>
    rw [unmatched, runningDepth, List.foldl_cons, Kind.openBraces_eq]
    split
    · exact ih _
    · split
      · rw [ih, List.length_tail]
        rfl
      · exact ih _

/-- The open braces are not all closed where the strays are fewer. -/
theorem closingFrom_eq_none_iff {depth : Nat} {tokens : List Token} :
    closingFrom (depth + 1) tokens = none ↔ strays tokens ≤ depth := by
  induction tokens generalizing depth with
  | nil => simp [closingFrom, strays]
  | cons token rest ih =>
    rw [closingFrom, strays, Kind.openBraces_eq]
    by_cases hopen : token.kind = .openCurly
    · rw [if_pos hopen, if_pos hopen, if_neg (Nat.succ_ne_zero _), ih]
      omega
    · rw [if_neg hopen, if_neg hopen]
      by_cases hclose : token.kind = .closeCurly
      · rw [if_pos hclose, if_pos hclose]
        cases depth with
        | zero => simp
        | succ depth =>
          rw [Nat.add_sub_cancel, if_neg (Nat.succ_ne_zero _), ih]
          omega
      · rw [if_neg hclose, if_neg hclose, if_neg (Nat.succ_ne_zero _), ih]

/-- Some braces that were open before are closed by strays, and those that stay open are counted on
top of the others. -/
theorem runningDepth_eq (depth : Nat) (tokens : List Token) :
    runningDepth depth tokens = unclosed tokens + (depth - strays tokens) := by
  induction tokens generalizing depth with
  | nil => simp [runningDepth, unclosed, strays]
  | cons token rest ih =>
    have hunclosed : unclosed (token :: rest) =
        unclosed rest + if token.kind = .openCurly ∧ strays rest = 0 then 1 else 0 := by
      have hfirst : (firstKind (token :: rest) .eof = .openCurly ∧
          closingFrom 0 (token :: rest) = none) ↔ token.kind = .openCurly ∧ strays rest = 0 := by
        rw [firstKind_cons]
        refine and_congr_right fun hopen => ?_
        rw [closingFrom, Kind.openBraces_eq, if_pos hopen, if_neg (Nat.succ_ne_zero _),
          closingFrom_eq_none_iff, Nat.le_zero]
      simp only [unclosed, List.tails_cons, List.countP_cons, decide_eq_true_eq, hfirst]
    have hstep : runningDepth depth (token :: rest) =
        runningDepth (token.kind.openBraces depth) rest := rfl
    rw [hstep, ih, hunclosed, strays, Kind.openBraces_eq]
    by_cases hopen : token.kind = .openCurly
    · simp only [hopen, true_and, reduceIte]
      split <;> omega
    · by_cases hclose : token.kind = .closeCurly
      · simp only [hclose, reduceIte, reduceCtorEq, false_and]
        omega
      · simp only [hopen, hclose, reduceIte, false_and]
        omega

/-- Where none is open before, the unmatched braces are those whose closing one does not come. -/
theorem runningDepth_zero (tokens : List Token) : runningDepth 0 tokens = unclosed tokens := by
  rw [runningDepth_eq, Nat.zero_sub, Nat.add_zero]

/-- No token left is the end of the input. -/
def Cursor.Genuine (c : Cursor) : Prop := ∀ token ∈ c.tokens, token.kind ≠ .eof

namespace Cursor.Genuine

variable {c stop : Cursor}

theorem of_reaches (h : c.Genuine) (hreaches : c.Reaches stop) : stop.Genuine :=
  fun token hmem => h token (hreaches.tokens_suffix.mem hmem)

/-- The end of the input is where no tokens are left. -/
theorem kind_current_iff (h : c.Genuine) : c.current.kind = .eof ↔ c.tokens = [] := by
  cases htokens : c.tokens with
  | nil => simp [current, htokens, Token.endOfInput]
  | cons token rest =>
    have hkind := h token (by simp [htokens])
    simp [current, htokens, hkind]

end Cursor.Genuine

/-- The token of a source at a place, the end of input being repeated for ever. -/
def tokenAt (source : String) (file : Option String) (n : Nat) : Token :=
  (tokenize source file).getD n (.endOfInput (Lexer.ofString source file).finish)

namespace Lexer

variable {lexer after : Lexer} {token : Token}

theorem next_of_next? (h : lexer.next? = some (token, after)) : lexer.next = (token, after) := by
  rw [next, h]
  rfl

theorem next_of_next?_eq_none (h : lexer.next? = none) :
    lexer.next = (.endOfInput lexer.finish, lexer.toEnd) := by
  rw [next, h]
  rfl

/-- Nothing is left at the end. -/
theorem next?_toEnd (lexer : Lexer) : lexer.toEnd.next? = none :=
  next?_of_rest_eq_nil (List.drop_length (l := lexer.rest))

theorem finish_toEnd (lexer : Lexer) : lexer.toEnd.finish = lexer.finish := by
  simp [finish, toEnd, skip]

/-- Drawing a token leaves the end of input where it is. -/
theorem finish_next (lexer : Lexer) : lexer.next.2.finish = lexer.finish := by
  cases hnext : lexer.next? with
  | none => rw [next_of_next?_eq_none hnext, finish_toEnd]
  | some drawn =>
    obtain ⟨-, hfile, -, -, hend⟩ := start_of_next? hnext
    rw [next_of_next? hnext, finish, finish, hend, hfile]

/-- Drawing a token leaves the others. -/
theorem content_next (lexer : Lexer) : lexer.next.2.content = lexer.content.tail := by
  cases hnext : lexer.next? with
  | none =>
    rw [next_of_next?_eq_none hnext, content_of_next?_eq_none hnext]
    exact content_of_next?_eq_none (next?_toEnd lexer)
  | some drawn => rw [next_of_next? hnext, content_of_next? hnext, List.tail_cons]

/-- The token drawn is the first that is left, or the end of input. -/
theorem token_next (lexer : Lexer) :
    lexer.next.1 = lexer.content.head?.getD (.endOfInput lexer.finish) := by
  cases hnext : lexer.next? with
  | none =>
    rw [next_of_next?_eq_none hnext, content_of_next?_eq_none hnext]
    rfl
  | some drawn =>
    rw [next_of_next? hnext, content_of_next? hnext]
    rfl

end Lexer

/-- The current token and the next one, with the lexer that the tokens after these are drawn from
and the braces open up to and including the current token. -/
structure Window where
  lexer : Lexer
  current : Token
  peek : Token
  openBraces : Nat
deriving DecidableEq

namespace Window

/-- Draws the first two tokens that a lexer has, where some braces are open before them. -/
def draw (lexer : Lexer) (depth : Nat) : Window :=
  let (current, rest) := lexer.next
  let (peek, rest) := rest.next
  ⟨rest, current, peek, current.kind.openBraces depth⟩

/-- Stands on the first token of `source`. -/
def ofString (source : String) (file : Option String) : Window :=
  draw (.ofString source file) 0

/-- Makes the next token the current one and draws another. -/
def advance (window : Window) : Window :=
  let (token, rest) := window.lexer.next
  ⟨rest, window.peek, token, window.peek.kind.openBraces window.openBraces⟩

/-- Whether a statement may end before the next token. -/
def peekEndsStatement (window : Window) : Bool :=
  match window.peek.kind with
  | .eof => true
  | .closeCurly => 0 < window.openBraces
  | _ => false

/-- The cursor over the tokens of the window and those that are still to be drawn. -/
def cursor (window : Window) : Cursor where
  tokens := [window.current, window.peek].filter (·.kind ≠ .eof) ++ window.lexer.content
  finish := window.lexer.finish
  openBraces := window.openBraces

/-- The tokens of the window were drawn from a lexer one after the other. -/
def Drawn (window : Window) : Prop := ∃ lexer depth, window = draw lexer depth

/-- The cursor of a window has what the lexer had when the window was drawn. -/
theorem cursor_draw (lexer : Lexer) (depth : Nat) :
    (draw lexer depth).cursor =
      ⟨lexer.content, lexer.finish, lexer.next.1.kind.openBraces depth⟩ := by
  have hfinish : lexer.next.2.next.2.finish = lexer.finish := by
    rw [Lexer.finish_next, Lexer.finish_next]
  have hcontent : lexer.next.2.next.2.content = lexer.content.tail.tail := by
    rw [Lexer.content_next, Lexer.content_next]
  have hgenuine (token : Token) (hmem : token ∈ lexer.content) : token.kind ≠ .eof :=
    Lexer.kind_ne_eof_of_mem_content hmem
  simp only [cursor, draw, hfinish, hcontent, Lexer.token_next, Lexer.content_next,
    Lexer.finish_next]
  cases hall : lexer.content with
  | nil => rfl
  | cons first rest =>
    rw [hall] at hgenuine
    cases rest with
    | nil => simp [hgenuine first, Token.endOfInput]
    | cons second rest => simp [hgenuine first, hgenuine second]

namespace Drawn

variable {window : Window}

theorem advance (h : window.Drawn) : window.advance.Drawn := by
  obtain ⟨lexer, depth, rfl⟩ := h
  exact ⟨lexer.next.2, _, rfl⟩

/-- Advancing does to the cursor of a window what it does to the window. -/
theorem cursor_advance (h : window.Drawn) : window.advance.cursor = window.cursor.advance := by
  obtain ⟨lexer, depth, rfl⟩ := h
  have hadvance : (draw lexer depth).advance =
      draw lexer.next.2 (lexer.next.1.kind.openBraces depth) := rfl
  rw [hadvance, cursor_draw, cursor_draw, Lexer.content_next, Lexer.finish_next,
    Lexer.token_next lexer.next.2, Lexer.content_next, Lexer.finish_next]
  rfl

theorem current_cursor (h : window.Drawn) : window.cursor.current = window.current := by
  obtain ⟨lexer, depth, rfl⟩ := h
  rw [cursor_draw]
  exact (Lexer.token_next lexer).symm

theorem peek_cursor (h : window.Drawn) : window.cursor.peek = window.peek := by
  obtain ⟨lexer, depth, rfl⟩ := h
  have hpeek := Lexer.token_next lexer.next.2
  rw [Lexer.content_next, Lexer.finish_next] at hpeek
  rw [cursor_draw]
  exact hpeek.symm

theorem peekEndsStatement_cursor (h : window.Drawn) :
    window.cursor.peekEndsStatement = window.peekEndsStatement := by
  rw [Cursor.peekEndsStatement, h.peek_cursor]
  rfl

/-- Nothing among the tokens of a window's cursor is the end of input. -/
theorem genuine (h : window.Drawn) : window.cursor.Genuine := by
  obtain ⟨lexer, depth, rfl⟩ := h
  rw [cursor_draw]
  exact fun _ => Lexer.kind_ne_eof_of_mem_content

/-- A window shows the end of input where no tokens are left. -/
theorem kind_current_iff (h : window.Drawn) :
    window.current.kind = .eof ↔ window.cursor.tokens = [] := by
  rw [← h.current_cursor]
  exact h.genuine.kind_current_iff

end Drawn

theorem drawn_ofString (source : String) (file : Option String) : (ofString source file).Drawn :=
  ⟨_, _, rfl⟩

theorem cursor_ofString (source : String) (file : Option String) :
    (ofString source file).cursor = .ofString source file := by
  rw [ofString, cursor_draw, Lexer.token_next]
  rfl

end Window

end LetScript
