import LetScript.Grammar.Cursor
import Mathlib.Data.List.Basic
import Mathlib.Data.List.Induction

/-!
# Braces in a list of tokens

Braces are balanced when no prefix closes more of them than it opens and the whole list closes as
many as it opens; they are guarded when only the first holds. A depth that runs along the list
and fails where a brace is closed at depth zero decides both. It agrees with the count that a
cursor keeps wherever it does not fail, since the two differ only in what becomes of a closing
brace without an opening one.

A block stands among balanced tokens when it has balanced tokens between its braces. Wherever
balanced tokens are put together from balanced parts, it stands in one of these.
-/

namespace LetScript

/-- How many tokens of a kind there are. -/
def countKind (kind : Kind) (tokens : List Token) : Nat :=
  tokens.countP fun token => token.kind = kind

theorem countKind_cons (kind : Kind) (token : Token) (rest : List Token) :
    countKind kind (token :: rest) = countKind kind rest + if token.kind = kind then 1 else 0 := by
  simp [countKind, List.countP_cons]

/-- No prefix closes more braces than it opens. -/
def Guarded (tokens : List Token) : Prop :=
  ∀ before, before <+: tokens → countKind .closeCurly before ≤ countKind .openCurly before

/-- Every brace is closed, and none before it is opened. -/
structure Balanced (tokens : List Token) : Prop where
  guarded : Guarded tokens
  settled : countKind .closeCurly tokens = countKind .openCurly tokens

/-- The braces open after `tokens` when `depth` are open before, unless one is closed that is not
open. -/
def braceDepth? (depth : Nat) : List Token → Option Nat
  | [] => some depth
  | token :: rest =>
    if token.kind = .openCurly then braceDepth? (depth + 1) rest
    else if token.kind = .closeCurly then
      if depth = 0 then none else braceDepth? (depth - 1) rest
    else braceDepth? depth rest

theorem braceDepth?_append (depth : Nat) (first second : List Token) :
    braceDepth? depth (first ++ second) =
      (braceDepth? depth first).bind fun between => braceDepth? between second := by
  induction first generalizing depth with
  | nil => rfl
  | cons token rest ih =>
    simp only [List.cons_append, braceDepth?]
    split
    · exact ih _
    · split
      · split
        · rfl
        · exact ih _
      · exact ih _

/-- More open braces before mean as many more after. -/
theorem braceDepth?_add {depth after : Nat} {tokens : List Token}
    (h : braceDepth? depth tokens = some after) (more : Nat) :
    braceDepth? (depth + more) tokens = some (after + more) := by
  induction tokens generalizing depth with
  | nil =>
    obtain rfl := Option.some.inj h
    rfl
  | cons token rest ih =>
    simp only [braceDepth?] at h ⊢
    split at h
    · rw [if_pos ‹_›, Nat.add_right_comm]
      exact ih h
    · rw [if_neg ‹_›]
      split at h
      · split at h
        · contradiction
        · rw [if_pos ‹_›, if_neg (by omega), show depth + more - 1 = depth - 1 + more by omega]
          exact ih h
      · rw [if_neg ‹_›]
        exact ih h

/-- The depth is the number of braces opened less those closed. -/
theorem add_countKind_of_braceDepth? {depth after : Nat} {tokens : List Token}
    (h : braceDepth? depth tokens = some after) :
    depth + countKind .openCurly tokens = after + countKind .closeCurly tokens := by
  induction tokens generalizing depth with
  | nil =>
    obtain rfl := Option.some.inj h
    rfl
  | cons token rest ih =>
    simp only [braceDepth?] at h
    simp only [countKind_cons]
    split at h
    · rename_i hopen
      have := ih h
      simp only [hopen, reduceIte, reduceCtorEq]
      omega
    · rename_i hopen
      split at h
      · rename_i hclose
        split at h
        · contradiction
        · have := ih h
          simp only [hclose, reduceIte, reduceCtorEq]
          omega
      · rename_i hclose
        have := ih h
        simp only [hopen, hclose, reduceIte]
        omega

/-- A prefix has a depth wherever the whole list has one. -/
theorem exists_braceDepth?_of_prefix {depth after : Nat} {before tokens : List Token}
    (h : braceDepth? depth tokens = some after) (hsub : before <+: tokens) :
    ∃ between, braceDepth? depth before = some between := by
  obtain ⟨rest, rfl⟩ := hsub
  rw [braceDepth?_append] at h
  obtain ⟨between, hbetween, -⟩ := Option.bind_eq_some_iff.mp h
  exact ⟨between, hbetween⟩

/-- The depth fails only after a prefix that closes more braces than are open. -/
theorem exists_prefix_of_braceDepth?_eq_none {depth : Nat} {tokens : List Token}
    (h : braceDepth? depth tokens = none) :
    ∃ before, before <+: tokens ∧
      depth + countKind .openCurly before < countKind .closeCurly before := by
  induction tokens generalizing depth with
  | nil => contradiction
  | cons token rest ih =>
    simp only [braceDepth?] at h
    split at h
    · rename_i hopen
      obtain ⟨before, hsub, hcount⟩ := ih h
      refine ⟨token :: before, List.prefix_cons_inj token |>.mpr hsub, ?_⟩
      simp only [countKind_cons, hopen, reduceIte, reduceCtorEq]
      omega
    · rename_i hopen
      split at h
      · rename_i hclose
        split at h
        · rename_i hzero
          refine ⟨[token], ⟨rest, rfl⟩, ?_⟩
          simp [countKind, hclose, hzero]
        · obtain ⟨before, hsub, hcount⟩ := ih h
          refine ⟨token :: before, List.prefix_cons_inj token |>.mpr hsub, ?_⟩
          simp only [countKind_cons, hclose, reduceIte, reduceCtorEq]
          omega
      · rename_i hclose
        obtain ⟨before, hsub, hcount⟩ := ih h
        refine ⟨token :: before, List.prefix_cons_inj token |>.mpr hsub, ?_⟩
        simp only [countKind_cons, hopen, hclose, reduceIte]
        omega

/-- Braces are guarded exactly when the depth never fails. -/
theorem guarded_iff {tokens : List Token} :
    Guarded tokens ↔ ∃ after, braceDepth? 0 tokens = some after := by
  constructor
  · intro hguarded
    cases hdepth : braceDepth? 0 tokens with
    | some after => exact ⟨after, rfl⟩
    | none =>
      obtain ⟨before, hsub, hcount⟩ := exists_prefix_of_braceDepth?_eq_none hdepth
      have := hguarded before hsub
      omega
  · rintro ⟨after, hafter⟩ before hsub
    obtain ⟨between, hbetween⟩ := exists_braceDepth?_of_prefix hafter hsub
    have := add_countKind_of_braceDepth? hbetween
    omega

/-- Braces are balanced exactly when the depth comes back to zero. -/
theorem balanced_iff {tokens : List Token} :
    Balanced tokens ↔ braceDepth? 0 tokens = some 0 := by
  constructor
  · rintro ⟨hguarded, hsettled⟩
    obtain ⟨after, hafter⟩ := guarded_iff.mp hguarded
    have := add_countKind_of_braceDepth? hafter
    obtain rfl : after = 0 := by omega
    exact hafter
  · intro h
    have := add_countKind_of_braceDepth? h
    exact ⟨guarded_iff.mpr ⟨0, h⟩, by omega⟩

/-- Where braces are open, the outermost of them was opened after balanced tokens. -/
theorem exists_opening_of_braceDepth? {depth : Nat} {tokens : List Token}
    (h : braceDepth? 0 tokens = some (depth + 1)) :
    ∃ front opening inner, tokens = front ++ opening :: inner ∧ Balanced front ∧
      opening.kind = .openCurly ∧ braceDepth? 0 inner = some depth := by
  induction tokens using List.reverseRecOn generalizing depth with
  | nil => simp [braceDepth?] at h
  | append_singleton tokens token ih =>
    rw [braceDepth?_append] at h
    obtain ⟨between, hbetween, hlast⟩ := Option.bind_eq_some_iff.mp h
    cases between with
    | zero =>
      have hopening : token.kind = .openCurly ∧ depth = 0 := by
        simp only [braceDepth?] at hlast
        grind
      obtain ⟨hopening, rfl⟩ := hopening
      exact ⟨tokens, token, [], rfl, balanced_iff.mpr hbetween, hopening, rfl⟩
    | succ between =>
      obtain ⟨front, opening, inner, rfl, hfront, hopening, hinner⟩ := ih hbetween
      refine ⟨front, opening, inner ++ [token], by simp, hfront, hopening, ?_⟩
      rw [braceDepth?_append, hinner]
      simp only [Option.bind_some, braceDepth?] at hlast ⊢
      grind

namespace Balanced

/-- Balanced tokens leave every depth as it is. -/
theorem braceDepth?_eq {tokens : List Token} (h : Balanced tokens) (depth : Nat) :
    braceDepth? depth tokens = some depth := by
  simpa using braceDepth?_add (balanced_iff.mp h) depth

theorem nil : Balanced [] := balanced_iff.mpr rfl

theorem append {first second : List Token} (hfirst : Balanced first) (hsecond : Balanced second) :
    Balanced (first ++ second) := by
  rw [balanced_iff, braceDepth?_append, hfirst.braceDepth?_eq]
  exact hsecond.braceDepth?_eq 0

/-- A token that is no brace may be put before balanced tokens. -/
theorem cons {token : Token} {rest : List Token} (hopen : token.kind ≠ .openCurly)
    (hclose : token.kind ≠ .closeCurly) (hrest : Balanced rest) : Balanced (token :: rest) := by
  rw [balanced_iff, braceDepth?, if_neg hopen, if_neg hclose]
  exact hrest.braceDepth?_eq 0

theorem single {token : Token} (hopen : token.kind ≠ .openCurly)
    (hclose : token.kind ≠ .closeCurly) : Balanced [token] :=
  .cons hopen hclose .nil

/-- Braces around balanced tokens. -/
theorem braced {opening closing : Token} {tokens : List Token} (hopen : opening.kind = .openCurly)
    (hclose : closing.kind = .closeCurly) (h : Balanced tokens) :
    Balanced (opening :: (tokens ++ [closing])) := by
  rw [balanced_iff, braceDepth?, if_pos hopen, braceDepth?_append, h.braceDepth?_eq]
  simp [braceDepth?, hclose]

/-- Balanced tokens may be dropped from the front of balanced ones. -/
theorem of_append {first second : List Token} (hfirst : Balanced first)
    (h : Balanced (first ++ second)) : Balanced second := by
  rw [balanced_iff, braceDepth?_append, hfirst.braceDepth?_eq] at h
  exact balanced_iff.mpr h

/-- A token that is no brace may be dropped from the end of balanced tokens. -/
theorem of_concat {token : Token} {tokens : List Token} (hopen : token.kind ≠ .openCurly)
    (hclose : token.kind ≠ .closeCurly) (h : Balanced (tokens ++ [token])) : Balanced tokens := by
  rw [balanced_iff, braceDepth?_append] at h
  obtain ⟨between, hbetween, hlast⟩ := Option.bind_eq_some_iff.mp h
  obtain rfl : between = 0 := by simpa [braceDepth?, hopen, hclose] using hlast
  exact balanced_iff.mpr hbetween

/-- Guarded tokens may follow balanced ones. -/
theorem append_guarded {first second : List Token} (hfirst : Balanced first)
    (hsecond : Guarded second) : Guarded (first ++ second) := by
  obtain ⟨after, hafter⟩ := guarded_iff.mp hsecond
  exact guarded_iff.mpr ⟨after, by rw [braceDepth?_append, hfirst.braceDepth?_eq]; exact hafter⟩

end Balanced

/-- Guarded tokens may follow an opening brace. -/
theorem Guarded.opened {opening : Token} {tokens : List Token}
    (hopen : opening.kind = .openCurly) (h : Guarded tokens) : Guarded (opening :: tokens) := by
  obtain ⟨after, hafter⟩ := guarded_iff.mp h
  refine guarded_iff.mpr ⟨after + 1, ?_⟩
  rw [braceDepth?, if_pos hopen]
  exact braceDepth?_add hafter 1

/-- Guarded tokens after an opening brace do not close it. -/
theorem Guarded.not_balanced_opened {opening : Token} {tokens : List Token} (front : List Token)
    (hopen : opening.kind = .openCurly) (h : Guarded tokens) :
    ¬ Balanced (front ++ opening :: tokens) := by
  intro hbalanced
  obtain ⟨after, hafter⟩ := guarded_iff.mp h
  have hdepth := balanced_iff.mp hbalanced
  rw [braceDepth?_append] at hdepth
  obtain ⟨depth, -, hrest⟩ := Option.bind_eq_some_iff.mp hdepth
  have hinside := braceDepth?_add hafter (depth + 1)
  rw [Nat.zero_add] at hinside
  rw [braceDepth?, if_pos hopen, hinside] at hrest
  injection hrest with hrest
  omega

theorem Guarded.of_prefix {before tokens : List Token} (h : Guarded tokens)
    (hsub : before <+: tokens) : Guarded before :=
  fun _ hbefore => h _ (hbefore.trans hsub)

/-- Among the tokens, `inside` is what stands between the braces of a block: `before` ends with
its opening brace, and `after` starts with its closing one. -/
structure Encloses (tokens before inside after : List Token) : Prop where
  tokens_eq : tokens = before ++ inside ++ after
  opens : before.getLast?.map Token.kind = some .openCurly
  closes : after.head?.map Token.kind = some .closeCurly
  balanced : Balanced inside

namespace Encloses

variable {tokens before inside after : List Token}

theorem before_ne_nil (h : Encloses tokens before inside after) : before ≠ [] := by
  rintro rfl
  simpa using h.opens

theorem after_ne_nil (h : Encloses tokens before inside after) : after ≠ [] := by
  rintro rfl
  simpa using h.closes

/-- Inside a block, its opening brace is not closed. -/
theorem not_balanced (h : Encloses tokens before inside after) {start : List Token}
    (hstart : start <+: inside) : ¬ Balanced (before ++ start) := by
  obtain ⟨opening, hopening, hkind⟩ := Option.map_eq_some_iff.mp h.opens
  obtain ⟨front, rfl⟩ := List.getLast?_eq_some_iff.mp hopening
  have hguarded := h.balanced.guarded.of_prefix hstart
  rw [List.append_assoc]
  exact hguarded.not_balanced_opened front hkind

/-- The depth inside a block is positive, and what comes after brings it back to zero. -/
theorem exists_depth (h : Encloses tokens before inside after) (hbalanced : Balanced tokens) :
    ∃ depth, braceDepth? 0 before = some (depth + 1) ∧ braceDepth? (depth + 1) after = some 0 := by
  obtain ⟨opening, hopening, hkind⟩ := Option.map_eq_some_iff.mp h.opens
  obtain ⟨front, rfl⟩ := List.getLast?_eq_some_iff.mp hopening
  rw [h.tokens_eq, balanced_iff, List.append_assoc, braceDepth?_append] at hbalanced
  obtain ⟨inner, hbefore, hrest⟩ := Option.bind_eq_some_iff.mp hbalanced
  rw [braceDepth?_append, h.balanced.braceDepth?_eq] at hrest
  obtain ⟨depth, rfl⟩ : ∃ depth, inner = depth + 1 := by
    rw [braceDepth?_append] at hbefore
    obtain ⟨depth, -, hopen⟩ := Option.bind_eq_some_iff.mp hbefore
    rw [braceDepth?, if_pos hkind] at hopen
    exact ⟨depth, (Option.some.inj hopen).symm⟩
  exact ⟨depth, hbefore, hrest⟩

/-- A block after balanced tokens that another list starts with stands in one of the two parts. -/
theorem of_append {first second : List Token} (hfirst : Balanced first)
    (h : Encloses (first ++ second) before inside after) :
    (∃ after', Encloses first before inside after' ∧ after = after' ++ second) ∨
      ∃ before', Encloses second before' inside after ∧ before = first ++ before' := by
  rcases List.append_eq_append_iff.mp h.tokens_eq with ⟨rest, hleft, hright⟩ | ⟨after', hleft, rfl⟩
  · right
    rcases List.append_eq_append_iff.mp hleft with ⟨start, rfl, hinside⟩ | ⟨before', rfl, rfl⟩
    · exact absurd hfirst (h.not_balanced ⟨rest, hinside.symm⟩)
    · refine ⟨before', ⟨hright, ?_, h.closes, h.balanced⟩, rfl⟩
      have hne : before' ≠ [] := by
        rintro rfl
        exact h.not_balanced List.nil_prefix (by simpa using hfirst)
      have hopens := h.opens
      rwa [List.getLast?_append_of_ne_nil _ hne] at hopens
  · left
    refine ⟨after', ⟨hleft, h.opens, ?_, h.balanced⟩, rfl⟩
    cases after' with
    | nil =>
      rw [List.append_nil] at hleft
      exact absurd (hleft ▸ hfirst) (h.not_balanced List.prefix_rfl)
    | cons token after' => exact h.closes

/-- Without an opening brace there is no block. -/
theorem not_of_forall_ne (hopen : ∀ token ∈ tokens, token.kind ≠ .openCurly) :
    ¬ Encloses tokens before inside after := by
  intro h
  obtain ⟨opening, hopening, hkind⟩ := Option.map_eq_some_iff.mp h.opens
  have hmem : opening ∈ tokens := by simp [h.tokens_eq, List.mem_of_getLast? hopening]
  exact hopen opening hmem hkind

/-- A block among braces around balanced tokens is between these, or is what they enclose. -/
theorem of_braced {opening closing : Token} (hclose : closing.kind = .closeCurly)
    (htokens : Balanced tokens)
    (h : Encloses (opening :: (tokens ++ [closing])) before inside after) :
    (before = [opening] ∧ inside = tokens ∧ after = [closing]) ∨
      ∃ before' after', Encloses tokens before' inside after' ∧ before = opening :: before' ∧
        after = after' ++ [closing] := by
  obtain ⟨first, before, rfl⟩ := List.exists_cons_of_ne_nil h.before_ne_nil
  have hsplit := h.tokens_eq
  rw [List.cons_append, List.cons_append] at hsplit
  obtain ⟨rfl, hrest⟩ := List.cons.inj hsplit
  cases before with
  | nil =>
    left
    obtain ⟨after, last, rfl⟩ := (List.eq_nil_or_concat after).resolve_left h.after_ne_nil
    rw [List.concat_eq_append, List.nil_append, ← List.append_assoc] at hrest
    obtain ⟨rfl, hlast⟩ := List.append_inj' hrest rfl
    obtain rfl := List.singleton_inj.mp hlast
    cases after with
    | nil => simp
    | cons brace after =>
      have hbrace : brace.kind = .closeCurly := by simpa using h.closes
      have hafter := balanced_iff.mp (h.balanced.of_append htokens)
      simp [braceDepth?, hbrace] at hafter
  | cons second before =>
    right
    have hopens : (second :: before).getLast?.map Token.kind = some .openCurly := by
      simpa using h.opens
    have hblock : Encloses (tokens ++ [closing]) (second :: before) inside after :=
      ⟨hrest, hopens, h.closes, h.balanced⟩
    rcases hblock.of_append htokens with ⟨after', htokens, rfl⟩ | ⟨before', hlast, -⟩
    · exact ⟨_, after', htokens, rfl, rfl⟩
    · exact absurd hlast (not_of_forall_ne (by simp [hclose]))

end Encloses

/-- Balanced tokens that come to a block contain it. -/
theorem Balanced.exists_of_block {front inner after taken more : List Token}
    {opening brace : Token} (h : Balanced taken) (hopening : opening.kind = .openCurly)
    (hinner : Balanced inner) (hbrace : brace.kind = .closeCurly)
    (hlength : front.length < taken.length)
    (heq : front ++ opening :: (inner ++ brace :: after) = taken ++ more) :
    ∃ skipped, taken = front ++ opening :: (inner ++ brace :: skipped) ∧
      after = skipped ++ more := by
  have hblock : Encloses (taken ++ more) (front ++ [opening]) inner (brace :: after) :=
    ⟨by simp [← heq], by simp [hopening], by simp [hbrace], hinner⟩
  rcases hblock.of_append h with ⟨after', htaken, hafter⟩ | ⟨before', hrest, hbefore⟩
  · obtain ⟨closing, skipped, rfl⟩ := List.exists_cons_of_ne_nil htaken.after_ne_nil
    obtain ⟨rfl, rfl⟩ := List.cons.inj hafter
    exact ⟨skipped, by simpa using htaken.tokens_eq, rfl⟩
  · have hpos := List.length_pos_iff.mpr hrest.before_ne_nil
    have hlengths := congrArg List.length hbefore
    simp only [List.length_append, List.length_singleton] at hlengths
    omega

/-- A kind counts for braces as the depth does, unless it closes one that is not open. -/
theorem Kind.openBraces_eq (kind : Kind) (depth : Nat) :
    kind.openBraces depth =
      if kind = .openCurly then depth + 1 else if kind = .closeCurly then depth - 1 else depth := by
  cases kind <;> rfl

/-- The depth fails at a token where a count of one brace more comes to zero. -/
theorem braceDepth?_cons (depth : Nat) (token : Token) (rest : List Token) :
    braceDepth? depth (token :: rest) =
      match token.kind.openBraces (depth + 1) with
      | 0 => none
      | after + 1 => braceDepth? after rest := by
  rw [Kind.openBraces_eq, braceDepth?]
  split
  · rfl
  · split
    · cases depth <;> rfl
    · rfl

end LetScript
