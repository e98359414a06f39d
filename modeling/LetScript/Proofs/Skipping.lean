import LetScript.Program.Attempt
import LetScript.Proofs.Passage

/-!
# Skipping what is left of a broken statement

Where braces are open, everything through the one that closes them all is skipped, and a semicolon
after it. Where none are open, everything through the next semicolon outside all braces is
skipped. What is left then is told by the tokens alone: the brace that closes those that are open
is found by running a depth along them.
-/

namespace LetScript

/-- The tokens from the brace on that closes all of the `depth` open ones and those opened since,
if it comes. -/
def closingFrom (depth : Nat) : List Token → Option (List Token)
  | [] => none
  | token :: rest =>
    if token.kind.openBraces depth = 0 then some (token :: rest)
    else closingFrom (token.kind.openBraces depth) rest

/-- The tokens without a semicolon at the front. -/
def dropSemicolon : List Token → List Token
  | [] => []
  | token :: rest => if token.kind = .semicolon then rest else token :: rest

/-- What is left after the closing brace and a semicolon; nothing if the brace never comes. -/
def afterClosing (found : Option (List Token)) : List Token :=
  match found with
  | none => []
  | some closing => dropSemicolon closing.tail

/-- What is left after the block that the tokens start with and a semicolon. -/
def afterBlock (tokens : List Token) : List Token := afterClosing (closingFrom 0 tokens)

/-- The closing brace is among the tokens. -/
theorem closingFrom_suffix {depth : Nat} {tokens closing : List Token}
    (h : closingFrom depth tokens = some closing) : closing ≠ [] ∧ closing <:+ tokens := by
  induction tokens generalizing depth with
  | nil => cases h
  | cons token rest ih =>
    rw [closingFrom] at h
    split at h
    · obtain rfl := Option.some.inj h
      exact ⟨List.cons_ne_nil _ _, List.suffix_refl _⟩
    · obtain ⟨hne, hsuffix⟩ := ih h
      exact ⟨hne, hsuffix.trans (List.suffix_cons _ _)⟩

/-- The closing brace comes after tokens that close the other braces that are open. -/
theorem closingFrom_eq_some_iff {depth : Nat} {tokens rest : List Token} {brace : Token} :
    closingFrom (depth + 1) tokens = some (brace :: rest) ↔
      ∃ inner, tokens = inner ++ brace :: rest ∧ brace.kind = .closeCurly ∧
        braceDepth? depth inner = some 0 := by
  induction tokens generalizing depth with
  | nil => simp [closingFrom]
  | cons token tokens ih =>
    rw [closingFrom]
    cases hcount : token.kind.openBraces (depth + 1) with
    | zero =>
      have hclose : token.kind = .closeCurly ∧ depth = 0 := by
        rw [Kind.openBraces_eq] at hcount
        grind
      obtain ⟨hclose, rfl⟩ := hclose
      constructor
      · intro h
        injection h with h
        obtain ⟨rfl, rfl⟩ := List.cons.inj h
        exact ⟨[], rfl, hclose, rfl⟩
      · rintro ⟨inner, heq, -, hdepth⟩
        cases inner with
        | nil => exact congrArg some heq
        | cons other inner =>
          obtain ⟨rfl, -⟩ := List.cons.inj heq
          rw [braceDepth?_cons, hcount] at hdepth
          contradiction
    | succ after =>
      rw [if_neg (Nat.succ_ne_zero after), ih]
      constructor
      · rintro ⟨inner, rfl, hclose, hdepth⟩
        refine ⟨token :: inner, rfl, hclose, ?_⟩
        rw [braceDepth?_cons, hcount]
        exact hdepth
      · rintro ⟨inner, heq, hclose, hdepth⟩
        cases inner with
        | nil =>
          obtain ⟨rfl, -⟩ := List.cons.inj heq
          rw [Kind.openBraces_eq] at hcount
          obtain rfl : depth = 0 := Option.some.inj hdepth
          simp [hclose] at hcount
        | cons other inner =>
          obtain ⟨rfl, rfl⟩ := List.cons.inj heq
          rw [braceDepth?_cons, hcount] at hdepth
          exact ⟨inner, rfl, hclose, hdepth⟩

/-- No closing brace that comes later is where the tokens start. -/
theorem closingFrom_tail_ne (depth : Nat) (tokens : List Token) :
    closingFrom depth tokens.tail ≠ some tokens := by
  intro h
  obtain ⟨hne, hsuffix⟩ := closingFrom_suffix h
  have hle := hsuffix.length_le
  have hpos := List.length_pos_iff.mpr hne
  rw [List.length_tail] at hle
  omega

namespace Cursor

theorem skipBroken_of_tokens_eq_nil {c : Cursor} (h : c.tokens = []) (inside : Bool) :
    c.skipBroken inside = c := by
  unfold skipBroken
  split
  · rfl
  · rename_i heq
    rw [h] at heq
    contradiction

/-- A semicolon outside all braces is the last token that is skipped. -/
theorem skipBroken_of_semicolon {c : Cursor} (hzero : c.openBraces = 0)
    (h : c.current.kind = .semicolon) (inside : Bool) : c.skipBroken inside = c := by
  unfold skipBroken
  split
  · rfl
  · rename_i heq
    rw [current, heq] at h
    exact if_pos ⟨hzero, h⟩

/-- The brace that closes all the open ones is the last token that is skipped, but for a
semicolon. -/
theorem skipBroken_of_closeCurly {c : Cursor} (hzero : c.openBraces = 0)
    (h : c.current.kind = .closeCurly) :
    c.skipBroken true = if c.peek.kind = .semicolon then c.advance else c := by
  unfold skipBroken
  split
  · rename_i heq
    simp [current, heq, Token.endOfInput] at h
  · rename_i token rest heq
    rw [current, heq] at h
    replace h : token.kind = .closeCurly := h
    rw [if_neg (by simp [h]), if_pos ⟨hzero, rfl, h⟩]

/-- Every other token is skipped. -/
theorem skipBroken_of_not {c : Cursor} {inside : Bool} (hleft : c.tokens ≠ [])
    (hsemicolon : ¬ (c.openBraces = 0 ∧ c.current.kind = .semicolon))
    (hclose : ¬ (c.openBraces = 0 ∧ inside ∧ c.current.kind = .closeCurly)) :
    c.skipBroken inside = c.advance.skipBroken inside := by
  rw [skipBroken]
  split
  · contradiction
  · rename_i heq
    rw [current, heq] at hsemicolon hclose
    exact (if_neg hsemicolon).trans (if_neg hclose)

/-- Where braces are open, the next token leaves some open or is the one that closes them all. -/
theorem closingFrom_advance {c : Cursor} (hopen : 0 < c.openBraces) :
    (0 < c.advance.openBraces ∧ closingFrom c.openBraces c.tokens.tail =
      closingFrom c.advance.openBraces c.advance.tokens.tail) ∨
    (c.advance.openBraces = 0 ∧ c.peek.kind = .closeCurly ∧
      closingFrom c.openBraces c.tokens.tail = some c.advance.tokens) := by
  have hcount : c.advance.openBraces = c.peek.kind.openBraces c.openBraces := rfl
  cases htail : c.tokens.tail with
  | nil =>
    have hkind : c.peek.kind = .eof := by simp [peek, htail, Token.endOfInput]
    rw [hkind] at hcount
    left
    rw [hcount, tokens_advance, htail]
    exact ⟨hopen, rfl⟩
  | cons token rest =>
    rw [peek_of_tail_eq htail] at hcount
    by_cases hzero : token.kind.openBraces c.openBraces = 0
    · right
      rw [closingFrom, if_pos hzero, tokens_advance, htail, hcount]
      refine ⟨hzero, ?_, rfl⟩
      rw [peek_of_tail_eq htail]
      rw [Kind.openBraces_eq] at hzero
      by_cases hclose : token.kind = .closeCurly
      · exact hclose
      · rw [if_neg hclose] at hzero
        split at hzero <;> omega
    · left
      rw [closingFrom, if_neg hzero, tokens_advance, htail, hcount]
      exact ⟨Nat.pos_of_ne_zero hzero, rfl⟩

/-- Taking guarded tokens does not close the braces that are open. -/
theorem Takes.closingFrom_eq {c stop : Cursor} {tokens : List Token} (h : c.Takes tokens stop)
    {depth after : Nat} (hdepth : braceDepth? depth tokens = some after)
    (hopen : c.openBraces = depth + 1) :
    0 < stop.openBraces ∧
      closingFrom c.openBraces c.tokens.tail = closingFrom stop.openBraces stop.tokens.tail := by
  induction h generalizing depth with
  | nil => exact ⟨by omega, rfl⟩
  | @cons cursor stop token tokens rest htail _ ih =>
    have hcount : cursor.advance.openBraces = token.kind.openBraces cursor.openBraces := by
      rw [← peek_of_tail_eq htail]
      rfl
    have hnext : ∃ between, braceDepth? between tokens = some after ∧
        cursor.advance.openBraces = between + 1 := by
      rw [hopen] at hcount
      rw [braceDepth?_cons, ← hcount] at hdepth
      split at hdepth
      · contradiction
      · exact ⟨_, hdepth, ‹_›⟩
    obtain ⟨between, hbetween, hadvance⟩ := hnext
    obtain ⟨hstop, heq⟩ := ih hbetween hadvance
    rcases closingFrom_advance (c := cursor) (by omega) with ⟨-, hstep⟩ | ⟨hzero, -⟩
    · exact ⟨hstop, hstep.trans heq⟩
    · omega

/-- Advancing over a semicolon, where there is one, leaves what comes after it. -/
theorem tokens_advance_over_semicolon (c : Cursor) :
    (if c.peek.kind = .semicolon then c.advance else c).advance.tokens =
      dropSemicolon c.tokens.tail := by
  cases htail : c.tokens.tail with
  | nil =>
    rw [if_neg (by simp [peek, htail, Token.endOfInput]), tokens_advance, htail]
    rfl
  | cons token rest =>
    rw [peek_of_tail_eq htail, dropSemicolon]
    split
    · rw [tokens_advance, tokens_advance, htail, List.tail_cons]
    · rw [tokens_advance, htail]

/-- From inside braces everything is skipped through the one that closes them all, and a
semicolon after it. -/
theorem tokens_advance_skipBroken_true {c : Cursor} (hopen : 0 < c.openBraces) :
    (c.skipBroken true).advance.tokens = afterClosing (closingFrom c.openBraces c.tokens.tail) := by
  fun_induction skipBroken true c with
  | case1 c htokens => simp [htokens, closingFrom, afterClosing]
  | case2 _ _ _ _ h => omega
  | case3 _ _ _ _ h => omega
  | case4 _ _ _ _ h => omega
  | case5 c token rest htokens _ _ _ ih =>
    rcases closingFrom_advance hopen with ⟨hpos, heq⟩ | ⟨hzero, hclose, heq⟩
    · rw [heq, ih hpos]
    · rw [heq, skipBroken_of_closeCurly hzero hclose]
      exact tokens_advance_over_semicolon c.advance

/-- From outside braces everything is skipped through a semicolon, so that reading goes on right
after a closing brace only if a semicolon or nothing comes after that. -/
theorem tokens_advance_skipBroken_false {c : Cursor} {closing : Token} {rest : List Token}
    (htokens : c.tokens = closing :: rest) (hclose : closing.kind = .closeCurly)
    (hzero : c.openBraces = 0) :
    (c.skipBroken false).advance.tokens = dropSemicolon rest ↔
      firstKind rest .semicolon = .semicolon := by
  have hcurrent : c.current.kind = .closeCurly := by simp [current, htokens, hclose]
  have hadvance : c.advance.tokens = rest := by rw [tokens_advance, htokens, List.tail_cons]
  rw [skipBroken_of_not (by simp [htokens]) (by simp [hcurrent]) (by simp)]
  cases rest with
  | nil =>
    refine iff_of_true ?_ rfl
    rw [skipBroken_of_tokens_eq_nil hadvance, tokens_advance, hadvance]
    rfl
  | cons token more =>
    have hpeek : c.peek = token := by simp [peek, htokens]
    by_cases hsemicolon : token.kind = .semicolon
    · refine iff_of_true ?_ hsemicolon
      have hcount : c.advance.openBraces = 0 := by
        rw [advance, hpeek, hsemicolon]
        exact hzero
      rw [skipBroken_of_semicolon hcount (by rw [current_advance, hpeek, hsemicolon]),
        tokens_advance, hadvance, dropSemicolon, if_pos hsemicolon, List.tail_cons]
    · refine iff_of_false ?_ hsemicolon
      intro heq
      have hle := (reaches_skipBroken false c.advance).length_tokens_le
      have hlength := congrArg List.length heq
      rw [dropSemicolon, if_neg hsemicolon, tokens_advance, List.length_tail,
        List.length_cons] at hlength
      rw [hadvance, List.length_cons] at hle
      omega

/-- Skipping does not end right before a semicolon, but may end on one. -/
theorem current_skipBroken {inside : Bool} {c : Cursor}
    (h : (c.skipBroken inside).peek.kind = .semicolon) :
    (c.skipBroken inside).current.kind = .semicolon := by
  fun_induction skipBroken inside c with
  | case1 c htokens => simp [peek, htokens, Token.endOfInput] at h
  | case2 c token rest htokens hends => simp [current, htokens, hends.2]
  | case3 c token rest htokens _ _ hpeek => exact hpeek
  | case4 c token rest htokens _ _ hpeek => contradiction
  | case5 c token rest htokens _ _ _ ih => exact ih h

end Cursor

/-- Where braces are balanced but for the open ones, there is one that closes them all. -/
theorem exists_closingFrom {depth : Nat} {tokens : List Token}
    (h : braceDepth? (depth + 1) tokens = some 0) :
    ∃ brace rest, closingFrom (depth + 1) tokens = some (brace :: rest) ∧ Balanced rest := by
  induction tokens generalizing depth with
  | nil => simp [braceDepth?] at h
  | cons token tokens ih =>
    rw [braceDepth?_cons, Kind.openBraces_eq] at h
    rw [closingFrom, Kind.openBraces_eq]
    by_cases hopen : token.kind = .openCurly
    · rw [if_pos hopen] at h ⊢
      exact ih h
    · rw [if_neg hopen] at h ⊢
      by_cases hclose : token.kind = .closeCurly
      · rw [if_pos hclose] at h ⊢
        cases depth with
        | zero => exact ⟨token, tokens, rfl, balanced_iff.mpr h⟩
        | succ depth => exact ih h
      · rw [if_neg hclose] at h ⊢
        exact ih h

end LetScript
