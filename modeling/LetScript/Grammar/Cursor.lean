import LetScript.Token.Lexer

/-!
# A cursor over the tokens of a source

A cursor holds the tokens that are left, the current one first, and the position where the input
ends. Past the last token it stands on the end of input for ever. Beside the current token only
the next one is ever looked at.

It also counts the braces that are open up to and including the current token, a closing brace
without an opening one counting for nothing. A cursor only ever moves forward: `Reaches` says
that one cursor comes after another by advancing, and what is left then is a suffix of what was
left before.
-/

namespace LetScript

/-- The number of open braces after a token of this kind. -/
def Kind.openBraces : Kind → Nat → Nat
  | openCurly, open_ => open_ + 1
  | closeCurly, open_ => open_ - 1
  | _, open_ => open_

/-- A place among the tokens of a source. -/
structure Cursor where
  /-- The tokens left, without the end of input. -/
  tokens : List Token
  /-- Where the input ends. -/
  finish : Position
  /-- The braces open up to and including the current token. -/
  openBraces : Nat
deriving DecidableEq, Repr

namespace Cursor

/-- The token the cursor stands on. -/
def current (cursor : Cursor) : Token :=
  cursor.tokens.head?.getD (.endOfInput cursor.finish)

/-- The token after the current one. -/
def peek (cursor : Cursor) : Token :=
  cursor.tokens.tail.head?.getD (.endOfInput cursor.finish)

/-- Where the current token starts. -/
def position (cursor : Cursor) : Position := cursor.current.position

/-- Stands on the first of `tokens`. -/
def ofTokens (tokens : List Token) (finish : Position) : Cursor :=
  { tokens, finish
    openBraces := (tokens.head?.getD (.endOfInput finish)).kind.openBraces 0 }

/-- Stands on the first token that the lexer reads. -/
def ofLexer (lexer : Lexer) : Cursor := ofTokens lexer.content lexer.finish

/-- Stands on the first token of `source`. -/
def ofString (source : String) (file : Option String) : Cursor :=
  ofLexer (Lexer.ofString source file)

/-- Moves on to the next token. -/
def advance (cursor : Cursor) : Cursor :=
  { cursor with
    tokens := cursor.tokens.tail
    openBraces := cursor.peek.kind.openBraces cursor.openBraces }

/-- Whether a statement may end before the next token: at the end of input, or before the brace
that closes the block the statement stands in. -/
def peekEndsStatement (cursor : Cursor) : Bool :=
  match cursor.peek.kind with
  | .eof => true
  | .closeCurly => 0 < cursor.openBraces
  | _ => false

@[simp] theorem tokens_advance (cursor : Cursor) : cursor.advance.tokens = cursor.tokens.tail :=
  rfl

@[simp] theorem finish_advance (cursor : Cursor) : cursor.advance.finish = cursor.finish := rfl

/-- The next token becomes the current one. -/
@[simp] theorem current_advance (cursor : Cursor) : cursor.advance.current = cursor.peek := rfl

/-- Nothing moves past the end of input. -/
theorem advance_of_tokens_eq_nil {cursor : Cursor} (h : cursor.tokens = []) :
    cursor.advance = cursor := by
  cases cursor
  subst h
  rfl

theorem length_tokens_advance_lt {cursor : Cursor} (h : cursor.tokens ≠ []) :
    cursor.advance.tokens.length < cursor.tokens.length := by
  have := List.length_pos_iff.mpr h
  simp only [tokens_advance, List.length_tail]
  omega

/-- The second cursor comes from the first by advancing, any number of times. -/
inductive Reaches (start : Cursor) : Cursor → Prop where
  | refl : Reaches start start
  | advance {cursor : Cursor} : Reaches start cursor → Reaches start cursor.advance

namespace Reaches

theorem trans {a b c : Cursor} (first : a.Reaches b) (second : b.Reaches c) : a.Reaches c := by
  induction second with
  | refl => exact first
  | advance _ ih => exact ih.advance

/-- Advancing once and then any number of times. -/
theorem ofAdvance {a b : Cursor} (h : a.advance.Reaches b) : a.Reaches b :=
  trans refl.advance h

/-- What is left later is a suffix of what was left before. -/
theorem tokens_suffix {a b : Cursor} (h : a.Reaches b) : b.tokens <:+ a.tokens := by
  induction h with
  | refl => exact List.suffix_refl _
  | advance _ ih => exact (List.tail_suffix _).trans ih

theorem length_tokens_le {a b : Cursor} (h : a.Reaches b) :
    b.tokens.length ≤ a.tokens.length :=
  h.tokens_suffix.length_le

/-- The end of input stays where it is. -/
theorem finish_eq {a b : Cursor} (h : a.Reaches b) : b.finish = a.finish := by
  induction h with
  | refl => rfl
  | advance _ ih => exact ih

end Reaches

end Cursor

end LetScript
