import LetScript.Proofs.Braces

/-!
# The tokens a cursor passes

A cursor that stands on the last token read takes the tokens after it one by one and comes to
stand on the last of them. The tokens taken, together with what is left, are what was left
before; their braces change the count of open ones. Everything that is said about what a routine
has read is said about the tokens that its cursor took.

A routine that starts on the first token of what it reads starts one token further: on the next
token of a cursor that has not taken it yet.
-/

namespace LetScript

namespace Cursor

/-- The second cursor comes from the first by advancing over `tokens`. -/
inductive Takes : Cursor → List Token → Cursor → Prop where
  | nil (cursor : Cursor) : Takes cursor [] cursor
  | cons {cursor stop : Cursor} {token : Token} {tokens rest : List Token} :
      cursor.tokens.tail = token :: rest → Takes cursor.advance tokens stop →
        Takes cursor (token :: tokens) stop

/-- The next token is the first that is left. -/
theorem peek_of_tail_eq {cursor : Cursor} {token : Token} {rest : List Token}
    (h : cursor.tokens.tail = token :: rest) : cursor.peek = token := by
  simp [peek, h]

/-- Nothing is left where the next token is the end of input, and only there. -/
theorem exists_tail_eq {cursor : Cursor} (h : cursor.peek.kind ≠ .eof) :
    ∃ rest, cursor.tokens.tail = cursor.peek :: rest := by
  cases htail : cursor.tokens.tail with
  | nil => exact absurd (by simp [peek, htail, Token.endOfInput]) h
  | cons token rest => exact ⟨rest, by rw [peek_of_tail_eq htail]⟩

/-- Behind an opening brace some brace is open. -/
theorem openBraces_advance_pos {cursor : Cursor} (h : cursor.peek.kind = .openCurly) :
    0 < cursor.advance.openBraces := by
  rw [advance, h]
  exact Nat.succ_pos _

namespace Takes

theorem peek_eq {cursor stop : Cursor} {token : Token} {tokens : List Token}
    (h : cursor.Takes (token :: tokens) stop) : cursor.peek = token := by
  cases h with
  | cons htail _ => exact peek_of_tail_eq htail

theorem of_advance {cursor stop : Cursor} {token : Token} {tokens : List Token}
    (h : cursor.Takes (token :: tokens) stop) : cursor.advance.Takes tokens stop := by
  cases h with
  | cons _ hrest => exact hrest

/-- Something is left where a token can be taken. -/
theorem tokens_ne_nil {cursor stop : Cursor} {token : Token} {tokens : List Token}
    (h : cursor.Takes (token :: tokens) stop) : cursor.tokens ≠ [] := by
  intro hnil
  cases h with
  | cons htail _ => simp [hnil] at htail

/-- A single token is taken by advancing. -/
theorem eq_advance {cursor stop : Cursor} {token : Token} (h : cursor.Takes [token] stop) :
    stop = cursor.advance := by
  cases h.of_advance
  rfl

/-- A token other than the end of input can be taken. -/
theorem single {cursor : Cursor} (h : cursor.peek.kind ≠ .eof) :
    cursor.Takes [cursor.peek] cursor.advance := by
  obtain ⟨rest, htail⟩ := exists_tail_eq h
  exact .cons htail (.nil _)

theorem append {first second third : Cursor} {tokens more : List Token}
    (h : first.Takes tokens second) (hmore : second.Takes more third) :
    first.Takes (tokens ++ more) third := by
  induction h with
  | nil => exact hmore
  | cons htail _ ih => exact .cons htail (ih hmore)

/-- One token more is taken. -/
theorem snoc {first second : Cursor} {tokens : List Token} (h : first.Takes tokens second)
    (hpeek : second.peek.kind ≠ .eof) : first.Takes (tokens ++ [second.peek]) second.advance :=
  h.append (single hpeek)

/-- Between two parts of what is taken there is a cursor. -/
theorem split {first third : Cursor} {tokens more : List Token}
    (h : first.Takes (tokens ++ more) third) :
    ∃ second, first.Takes tokens second ∧ second.Takes more third := by
  induction tokens generalizing first with
  | nil => exact ⟨first, .nil _, h⟩
  | cons token tokens ih =>
    cases h with
    | cons htail hrest =>
      obtain ⟨second, htokens, hmore⟩ := ih hrest
      exact ⟨second, .cons htail htokens, hmore⟩

/-- What was left is what is taken and what is left then. -/
theorem tail_eq {first second : Cursor} {tokens : List Token} (h : first.Takes tokens second) :
    first.tokens.tail = tokens ++ second.tokens.tail := by
  induction h with
  | nil => rfl
  | cons htail _ ih =>
    rw [tokens_advance, htail, List.tail_cons] at ih
    rw [htail, ih, List.cons_append]

/-- A cursor that takes something comes to stand on its last token. -/
theorem tokens_eq {first second : Cursor} {token : Token} {tokens : List Token}
    (h : first.Takes (tokens ++ [token]) second) :
    second.tokens = token :: second.tokens.tail := by
  obtain ⟨between, -, hlast⟩ := h.split
  cases hlast with
  | cons htail hrest =>
    cases hrest
    rw [tokens_advance, htail, List.tail_cons]

/-- Where something has been taken, the cursor stands on a token. -/
theorem stop_ne_nil {first second : Cursor} {tokens : List Token} (h : first.Takes tokens second)
    (hne : tokens ≠ []) : second.tokens ≠ [] := by
  rw [← List.dropLast_concat_getLast hne] at h
  exact h.tokens_eq ▸ List.cons_ne_nil _ _

/-- Whatever is left can be taken in part. -/
theorem exists_of_tail_eq {cursor : Cursor} {tokens rest : List Token}
    (h : cursor.tokens.tail = tokens ++ rest) :
    ∃ stop, cursor.Takes tokens stop ∧ stop.tokens.tail = rest := by
  induction tokens generalizing cursor with
  | nil => exact ⟨cursor, .nil _, h⟩
  | cons token tokens ih =>
    obtain ⟨stop, htakes, hstop⟩ := @ih cursor.advance (by rw [tokens_advance, h]; rfl)
    exact ⟨stop, .cons h htakes, hstop⟩

/-- The end of input stays where it is. -/
theorem finish_eq {first second : Cursor} {tokens : List Token} (h : first.Takes tokens second) :
    second.finish = first.finish := by
  induction h with
  | nil => rfl
  | cons _ _ ih => exact ih

/-- Something has been taken where the next token has been passed. -/
theorem ne_nil_of_reaches {first second : Cursor} {tokens : List Token}
    (h : first.Takes tokens second) (hleft : first.tokens ≠ [])
    (hreaches : first.advance.Reaches second) : tokens ≠ [] := by
  rintro rfl
  cases h
  have hle := hreaches.length_tokens_le
  have hlt := length_tokens_advance_lt hleft
  omega

/-- The count of open braces follows the depth as long as the depth does not fail. -/
theorem openBraces_eq {first second : Cursor} {tokens : List Token} {depth : Nat}
    (h : first.Takes tokens second) (hdepth : braceDepth? first.openBraces tokens = some depth) :
    second.openBraces = depth := by
  induction h with
  | nil => exact Option.some.inj hdepth
  | @cons cursor _ token _ _ htail _ ih =>
    have hcount : cursor.advance.openBraces = token.kind.openBraces cursor.openBraces := by
      rw [← peek_of_tail_eq htail]
      rfl
    apply ih
    rw [hcount, Kind.openBraces_eq]
    simp only [braceDepth?] at hdepth
    split
    · rwa [if_pos ‹_›] at hdepth
    · rw [if_neg ‹_›] at hdepth
      split
      · rw [if_pos ‹_›] at hdepth
        split at hdepth
        · contradiction
        · exact hdepth
      · rwa [if_neg ‹_›] at hdepth

/-- Balanced tokens leave the count of open braces as it is. -/
theorem openBraces_of_balanced {first second : Cursor} {tokens : List Token}
    (h : first.Takes tokens second) (hbalanced : Balanced tokens) :
    second.openBraces = first.openBraces :=
  h.openBraces_eq (hbalanced.braceDepth?_eq _)

/-- Guarded tokens that are taken between places outside all braces are balanced. -/
theorem balanced_of_guarded {first second : Cursor} {tokens : List Token}
    (h : first.Takes tokens second) (hguarded : Guarded tokens) (hfirst : first.openBraces = 0)
    (hsecond : second.openBraces = 0) : Balanced tokens := by
  obtain ⟨depth, hdepth⟩ := guarded_iff.mp hguarded
  have hcount := h.openBraces_eq (hfirst ▸ hdepth)
  rw [balanced_iff, hdepth, ← hcount, hsecond]

end Takes

/-- A cursor before the first token left, with `depth` braces open. -/
def before (tokens : List Token) (finish : Position) (depth : Nat) : Cursor :=
  ⟨.endOfInput finish :: tokens, finish, depth⟩

@[simp] theorem openBraces_before (tokens : List Token) (finish : Position) (depth : Nat) :
    (before tokens finish depth).openBraces = depth := rfl

/-- The tokens from where one cursor stands up to where another does, both included. -/
def through (start stop : Cursor) : List Token :=
  start.tokens.take (start.tokens.length + 1 - stop.tokens.length)

/-- What is taken from the next token on is what stands through the last one. -/
theorem Takes.through_eq {cursor stop : Cursor} {token : Token} {tokens : List Token}
    (h : cursor.Takes (tokens ++ [token]) stop) :
    cursor.advance.through stop = tokens ++ [token] := by
  have htail := h.tail_eq
  have hlength := congrArg List.length h.tokens_eq
  rw [List.length_cons] at hlength
  rw [through, tokens_advance, htail, List.length_append, hlength]
  rw [show (tokens ++ [token]).length + stop.tokens.tail.length + 1 -
    (stop.tokens.tail.length + 1) = (tokens ++ [token]).length by omega]
  exact List.take_left

theorem Takes.through_eq_of_ne_nil {cursor stop : Cursor} {tokens : List Token}
    (h : cursor.Takes tokens stop) (hne : tokens ≠ []) : cursor.advance.through stop = tokens := by
  obtain ⟨init, last, rfl⟩ := (List.eq_nil_or_concat tokens).resolve_left hne
  rw [List.concat_eq_append] at h ⊢
  exact h.through_eq

/-- No braces are open before the current token. -/
def Outside (cursor : Cursor) : Prop :=
  cursor.openBraces = cursor.current.kind.openBraces 0

/-- A cursor outside all braces is the next one after a cursor without open braces. -/
theorem Outside.eq_advance {cursor : Cursor} (h : cursor.Outside) :
    cursor = (before cursor.tokens cursor.finish 0).advance := by
  cases cursor
  simp only [Outside, current] at h
  subst h
  rfl

theorem outside_advance {cursor : Cursor} (h : cursor.openBraces = 0) :
    cursor.advance.Outside := by
  simp [Outside, advance, h, current, peek]

end Cursor

/-- The kind of the first token, or `next` when there is none. -/
def firstKind (tokens : List Token) (next : Kind) : Kind :=
  (tokens.head?.map Token.kind).getD next

@[simp] theorem firstKind_nil (next : Kind) : firstKind [] next = next := rfl

@[simp] theorem firstKind_cons (token : Token) (tokens : List Token) (next : Kind) :
    firstKind (token :: tokens) next = token.kind := rfl

theorem firstKind_append (first second : List Token) (next : Kind) :
    firstKind (first ++ second) next = firstKind first (firstKind second next) := by
  cases first <;> rfl

/-- The next token before something is taken is its first one. -/
theorem Cursor.Takes.peek_kind_eq {first second : Cursor} {tokens : List Token}
    (h : first.Takes tokens second) : first.peek.kind = firstKind tokens second.peek.kind := by
  cases h with
  | nil => rfl
  | cons htail _ => rw [Cursor.peek_of_tail_eq htail, firstKind_cons]

end LetScript
