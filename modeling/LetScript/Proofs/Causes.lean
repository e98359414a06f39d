import LetScript.Proofs.Failure
import LetScript.Proofs.Frames
import LetScript.Proofs.Segments
import LetScript.Proofs.Spelling

/-!
# What a diagnostic says is so

Each diagnostic stands at a token, and what its cause says of a token holds of this one: that it is
of a kind other than the expected one, that no expression starts with it, that it is illegal, that
its digits stand for too large a number, that the input ends with an open block before it, or that
as many frames are open before it as may be.

Causes are made from the next token or, after it has been moved to, from the current one. In both
cases this is the token the reading breaks at, and the position is taken from the same one.
-/

namespace LetScript

open Routine

/-- One of the opening braces among the tokens is not closed among those after it. -/
def LeavesOpen (tokens : List Token) : Prop :=
  ∃ front opening after, tokens = front ++ opening :: after ∧ opening.kind = .openCurly ∧
    Guarded after

theorem LeavesOpen.append {tokens : List Token} (h : LeavesOpen tokens) (front : List Token) :
    LeavesOpen (front ++ tokens) := by
  obtain ⟨first, opening, after, rfl, hkind, hguarded⟩ := h
  exact ⟨front ++ first, opening, after, by simp, hkind, hguarded⟩

/-- What a cause says of a token, after those of the statement that were read before it. -/
def Cause.HoldsAt (front : List Token) (token : Token) : Cause → Prop
  | .unrecognisedToken literal => token.kind = .illegal ∧ token.literal = literal
  | .unexpectedToken expected found => token.kind = found ∧ found ≠ expected
  | .noPrefixRule kind =>
    token.kind = kind ∧ kind ≠ .illegal ∧ Table.standard.prefixRule kind = none
  | .unreadableInteger literal =>
    token.kind = .integer ∧ token.literal = literal ∧
      ∃ value, Decimal.value? literal.toList = some value ∧ maxInteger < value
  | .unterminatedBlock => token.kind = .eof ∧ LeavesOpen front
  | .nestingTooDeep limit => limit = 100 ∧ Entering .stmt front 100

/-- A failure at the next token, or at the end of the input in a block that is left open. -/
def Cursor.BreaksOpen (c : Cursor) (diagnostic : Diagnostic) (stop : Cursor) : Prop :=
  ∃ tokens between, c.Takes tokens between ∧
    (between.Refuses diagnostic stop ∨ between.Unterminated diagnostic stop ∧ LeavesOpen tokens)

/-- More tokens may stand before a failure. -/
theorem Cursor.BreaksOpen.later {c between stop : Cursor} {diagnostic : Diagnostic}
    {tokens : List Token} (h : between.BreaksOpen diagnostic stop)
    (htakes : c.Takes tokens between) : c.BreaksOpen diagnostic stop := by
  obtain ⟨more, last, htakesMore, hfails⟩ := h
  refine ⟨tokens ++ more, last, htakes.append htakesMore, hfails.imp_right ?_⟩
  exact fun ⟨hunterminated, hopen⟩ => ⟨hunterminated, hopen.append tokens⟩

/-- Where the closing brace of a block is missing, its opening one is left open. -/
theorem Table.breaksOpen_level (levels : Nat) :
    (standard.level levels).Failing levels Cursor.BreaksOpen := by
  induction levels with
  | zero =>
    refine ⟨sound_level 0, fun h => ⟨[], _, .nil _, .inl h⟩, fun htakes _ h => h.later htakes,
      fun hrun => ?_, fun _ hrun => ?_⟩
    · cases hrun
      exact ⟨[], _, .nil _, .inl .tooDeep⟩
    · cases hrun
      exact ⟨[], _, .nil _, .inl .tooDeep⟩
  | succ levels ih =>
    refine ⟨sound_level _, fun h => ⟨[], _, .nil _, .inl h⟩, fun htakes _ h => h.later htakes,
      ih.readExpr, fun {c stop diagnostic} hopening hrun => ?_⟩
    obtain ⟨tokens, between, htakes, hcontents, hfails⟩ := ih.readBlock hrun
    have hbrace : c.Takes [c.peek] c.advance := .single (by simp [hopening])
    rcases hfails with hbreaks | hunterminated
    · exact hbreaks.later (hbrace.append htakes)
    · exact ⟨c.peek :: tokens, between, hbrace.append htakes, .inr ⟨hunterminated,
        [], c.peek, tokens, rfl, hopening, hcontents.balanced.guarded⟩⟩

namespace Decimal

theorem digit?_of_isDigit {c : Char} (h : c.isDigit) : digit? c = some (c.toNat - '0'.toNat) := by
  refine if_pos ?_
  simpa [Char.isDigit, Char.le_def] using h

theorem exists_valueAfter? {chars : List Char} (hdigits : ∀ c ∈ chars, c.isDigit) (before : Nat) :
    ∃ value, valueAfter? before chars = some value := by
  induction chars generalizing before with
  | nil => exact ⟨before, rfl⟩
  | cons c rest ih =>
    rw [valueAfter?, digit?_of_isDigit (hdigits c List.mem_cons_self)]
    exact ih (fun other hmem => hdigits other (List.mem_cons_of_mem _ hmem)) _

/-- A run of digits has a value. -/
theorem exists_value? {chars : List Char} (hne : chars ≠ []) (hdigits : ∀ c ∈ chars, c.isDigit) :
    ∃ value, value? chars = some value := by
  cases chars with
  | nil => contradiction
  | cons c rest => exact exists_valueAfter? hdigits 0

end Decimal

/-- The digits of a token that cannot be read stand for a number above the largest integer. -/
theorem exists_lt_of_integerValue? {token : Token} (hspelled : token.Spelled)
    (hkind : token.kind = .integer) (h : integerValue? token.literal = none) :
    ∃ value, Decimal.value? token.literal.toList = some value ∧ maxInteger < value := by
  rw [Token.Spelled, hkind] at hspelled
  obtain ⟨hne, hdigits⟩ := hspelled
  obtain ⟨value, hvalue⟩ := Decimal.exists_value? (by simpa using hne) hdigits
  refine ⟨value, hvalue, ?_⟩
  rw [integerValue?, hvalue] at h
  simpa using h

/-- The cause of a failure at the next token holds of it. -/
theorem Cursor.Refuses.holdsAt {c stop : Cursor} {diagnostic : Diagnostic}
    (h : c.Refuses diagnostic stop) (hspelled : c.peek.kind = .integer → c.peek.Spelled)
    (hdeep : ∀ limit, diagnostic.cause ≠ .nestingTooDeep limit) (front : List Token) :
    diagnostic.cause.HoldsAt front c.peek := by
  cases h with
  | unexpected hne => exact ⟨rfl, hne⟩
  | noRule hrule =>
    rw [Level.refusal]
    split
    · exact ⟨‹_›, rfl⟩
    · exact ⟨rfl, ‹_›, hrule⟩
  | unreadable hkind hnone =>
    exact ⟨hkind, rfl, exists_lt_of_integerValue? (hspelled hkind) hkind hnone⟩
  | tooDeep => exact absurd rfl (hdeep _)

/-- The token at which a reading breaks is one of the source's or the end of the input. -/
theorem Cursor.Takes.tail_append_endOfInput {c between : Cursor} {front : List Token}
    (h : c.Takes front between) :
    ∃ rest, c.tokens.tail ++ [.endOfInput c.finish] = front ++ between.peek :: rest := by
  rw [h.tail_eq]
  cases htail : between.tokens.tail with
  | nil => exact ⟨[], by rw [peek, htail, h.finish_eq]; simp⟩
  | cons token rest =>
    exact ⟨rest ++ [.endOfInput c.finish], by rw [peek_of_tail_eq htail]; simp⟩

/-- Where reading a statement fails, the cause holds of the token that the diagnostic stands at. -/
theorem exists_holdsAt_of_error {c stop : Cursor} {diagnostic : Diagnostic}
    (hspelled : ∀ token ∈ c.tokens.tail, token.kind ≠ .illegal → token.Spelled)
    (hrun : Table.standard.statement.run c.advance = (.error diagnostic, stop)) :
    ∃ front token rest, c.tokens.tail ++ [.endOfInput c.finish] = front ++ token :: rest ∧
      diagnostic.position = token.position ∧ diagnostic.cause.HoldsAt front token := by
  by_cases hdeep : ∃ limit, diagnostic.cause = .nestingTooDeep limit
  · obtain ⟨limit, hcause⟩ := hdeep
    obtain ⟨cause, position⟩ := diagnostic
    obtain rfl : cause = .nestingTooDeep limit := hcause
    obtain ⟨hlimit, front, between, htakes, hentering, hposition⟩ :=
      (Table.entered_level nestingLimit).readStmt hrun
    obtain ⟨rest, hsplit⟩ := htakes.tail_append_endOfInput
    exact ⟨front, between.peek, rest, hsplit, hposition, hlimit, hentering⟩
  · obtain ⟨front, between, htakes, hfails⟩ := (Table.breaksOpen_level nestingLimit).readStmt hrun
    obtain ⟨rest, hsplit⟩ := htakes.tail_append_endOfInput
    refine ⟨front, between.peek, rest, hsplit, ?_⟩
    rcases hfails with hrefuses | ⟨hunterminated, hopen⟩
    · refine ⟨?_, hrefuses.holdsAt (fun hkind => ?_) (not_exists.mp hdeep) front⟩
      · cases hrefuses <;> rfl
      · -- An integer is a token of the source, so it is spelled in digits.
        have hmem : between.peek ∈ c.tokens.tail ++ [.endOfInput c.finish] := by simp [hsplit]
        rcases List.mem_append.mp hmem with hmem | hmem
        · exact hspelled _ hmem (by simp [hkind])
        · rw [List.mem_singleton.mp hmem] at hkind
          cases hkind
    · cases hunterminated with
      | of_tokens_eq_nil hnil =>
        refine ⟨rfl, ?_, hopen⟩
        rw [← Cursor.current_advance, Cursor.current, hnil]
        rfl

/-- Where an attempt fails, the cause holds of the token that the diagnostic stands at. -/
theorem exists_holdsAt_of_attempt {source : String} {file : Option String} {attempt : Attempt}
    {diagnostic : Diagnostic} (hmem : attempt ∈ sourceAttempts source file)
    (hresult : attempt.result = .error diagnostic) :
    ∃ front token rest,
      attempt.start.tokens ++ [.endOfInput (Lexer.ofString source file).finish] =
        front ++ token :: rest ∧
      diagnostic.position = token.position ∧ diagnostic.cause.HoldsAt front token := by
  obtain ⟨houtside, heq⟩ := outside_of_mem_sourceAttempts hmem
  obtain ⟨first, second, hsplit⟩ := List.append_of_mem hmem
  obtain ⟨hreaches, -⟩ := of_attempts_eq_append hsplit
  let c : Cursor := .before attempt.start.tokens attempt.start.finish 0
  have hrun : Table.standard.statement.run c.advance = (.error diagnostic, attempt.stop) := by
    rw [← houtside.eq_advance, ← hresult, heq]
    rfl
  have hspelled : ∀ token ∈ c.tokens.tail, token.kind ≠ .illegal → token.Spelled :=
    fun token htoken => Lexer.spelled_of_mem_content (hreaches.tokens_suffix.subset htoken)
  have hfinish : c.finish = (Lexer.ofString source file).finish := hreaches.finish_eq
  rw [← hfinish]
  exact exists_holdsAt_of_error hspelled hrun

end LetScript
