import LetScript.Proofs.Braces

/-!
# Clauses and sentences

A semicolon ends a statement only outside all braces. A clause is a balanced list without such a
semicolon, and a sentence is a clause with or without one at its end. A list that is not finished
may still have braces to close, and then a semicolon in these does not end it. None of them
contains a token that is no token of the language.
-/

namespace LetScript

/-- No semicolon stands outside all braces. -/
def Unended (tokens : List Token) : Prop :=
  ∀ front semicolon rest, tokens = front ++ semicolon :: rest → Balanced front →
    semicolon.kind ≠ .semicolon

namespace Unended

theorem nil : Unended [] := by
  intro front semicolon rest heq
  simp at heq

theorem append {first second : List Token} (hbalanced : Balanced first) (hfirst : Unended first)
    (hsecond : Unended second) : Unended (first ++ second) := by
  intro front semicolon rest heq hfront
  rcases List.append_eq_append_iff.mp heq with ⟨more, rfl, rfl⟩ | ⟨more, rfl, hmore⟩
  · exact hsecond more semicolon rest rfl (hbalanced.of_append hfront)
  · cases more with
    | nil => exact hsecond [] semicolon rest hmore.symm .nil
    | cons token more =>
      obtain ⟨rfl, -⟩ := List.cons.inj hmore
      exact hfirst front semicolon more rfl hfront

/-- Whatever stands after an opening brace that is not closed stands inside braces. -/
theorem opened {opening : Token} {tokens : List Token} (hopen : opening.kind = .openCurly)
    (h : Guarded tokens) : Unended (opening :: tokens) := by
  intro front semicolon rest heq hfront
  cases front with
  | nil =>
    obtain ⟨rfl, -⟩ := List.cons.inj heq
    simp [hopen]
  | cons token front =>
    obtain ⟨rfl, rfl⟩ := List.cons.inj heq
    exact absurd hfront ((h.of_prefix (List.prefix_append _ _)).not_balanced_opened [] hopen)

/-- A token that is no semicolon may be put at the end. -/
theorem concat {token : Token} {tokens : List Token} (h : Unended tokens)
    (hkind : token.kind ≠ .semicolon) : Unended (tokens ++ [token]) := by
  intro front semicolon rest heq hfront
  rcases List.eq_nil_or_concat rest with rfl | ⟨more, last, rfl⟩
  · obtain ⟨-, hlast⟩ := List.append_inj' heq rfl
    obtain rfl := List.singleton_inj.mp hlast
    exact hkind
  · rw [List.concat_eq_append, ← List.cons_append, ← List.append_assoc] at heq
    exact h front semicolon more (List.append_inj' heq rfl).1 hfront

end Unended

/-- No byte among the tokens starts no token. -/
def Legal (tokens : List Token) : Prop := ∀ token ∈ tokens, token.kind ≠ .illegal

namespace Legal

theorem nil : Legal [] := List.forall_mem_nil _

theorem cons {token : Token} {rest : List Token} (h : token.kind ≠ .illegal) (hrest : Legal rest) :
    Legal (token :: rest) :=
  List.forall_mem_cons.mpr ⟨h, hrest⟩

theorem append {first second : List Token} (hfirst : Legal first) (hsecond : Legal second) :
    Legal (first ++ second) :=
  List.forall_mem_append.mpr ⟨hfirst, hsecond⟩

end Legal

/-- Legal tokens with balanced braces, as they stand in a block. -/
structure Contents (tokens : List Token) : Prop where
  balanced : Balanced tokens
  legal : Legal tokens

namespace Contents

theorem nil : Contents [] := ⟨.nil, .nil⟩

theorem append {first second : List Token} (hfirst : Contents first) (hsecond : Contents second) :
    Contents (first ++ second) :=
  ⟨hfirst.balanced.append hsecond.balanced, hfirst.legal.append hsecond.legal⟩

end Contents

/-- Legal tokens with guarded braces, as the contents of a block start. -/
structure Begun (tokens : List Token) : Prop where
  guarded : Guarded tokens
  legal : Legal tokens

theorem Contents.begun {tokens : List Token} (h : Contents tokens) : Begun tokens :=
  ⟨h.balanced.guarded, h.legal⟩

/-- Contents of a block may stand before those that start one. -/
theorem Begun.append {first second : List Token} (hfirst : Contents first)
    (hsecond : Begun second) : Begun (first ++ second) :=
  ⟨hfirst.balanced.append_guarded hsecond.guarded, hfirst.legal.append hsecond.legal⟩

/-- Neither the end of input nor an illegal token nor a brace nor a semicolon. -/
def Kind.Plain (kind : Kind) : Prop :=
  kind ≠ .eof ∧ kind ≠ .illegal ∧ kind ≠ .openCurly ∧ kind ≠ .closeCurly ∧ kind ≠ .semicolon

@[simp] theorem Kind.plain_iff {kind : Kind} :
    kind.Plain ↔ kind ≠ .eof ∧ kind ≠ .illegal ∧ kind ≠ .openCurly ∧ kind ≠ .closeCurly ∧
      kind ≠ .semicolon :=
  Iff.rfl

/-- Contents of a block of which no semicolon stands outside all braces. -/
structure Clause (tokens : List Token) : Prop extends Contents tokens where
  unended : Unended tokens

namespace Clause

theorem nil : Clause [] := ⟨.nil, .nil⟩

theorem append {first second : List Token} (hfirst : Clause first) (hsecond : Clause second) :
    Clause (first ++ second) :=
  ⟨hfirst.toContents.append hsecond.toContents,
    hfirst.unended.append hfirst.balanced hsecond.unended⟩

theorem single {token : Token} (h : token.kind.Plain) : Clause [token] := by
  obtain ⟨-, hlegal, hopen, hclose, hsemicolon⟩ := h
  exact ⟨⟨.single hopen hclose, .cons hlegal .nil⟩, Unended.nil.concat hsemicolon⟩

/-- A plain token may be put before a clause. -/
theorem cons {token : Token} {rest : List Token} (h : token.kind.Plain) (hrest : Clause rest) :
    Clause (token :: rest) :=
  (single h).append hrest

/-- Plain tokens are a clause. -/
theorem of_plain {tokens : List Token} (h : ∀ token ∈ tokens, token.kind.Plain) :
    Clause tokens := by
  induction tokens with
  | nil => exact .nil
  | cons token rest ih =>
    obtain ⟨hfirst, hrest⟩ := List.forall_mem_cons.mp h
    exact (ih hrest).cons hfirst

/-- Braces around the contents of a block. -/
theorem braced {opening closing : Token} {tokens : List Token} (hopen : opening.kind = .openCurly)
    (hclose : closing.kind = .closeCurly) (h : Contents tokens) :
    Clause (opening :: (tokens ++ [closing])) where
  balanced := h.balanced.braced hopen hclose
  legal := .cons (by simp [hopen]) (h.legal.append (.cons (by simp [hclose]) .nil))
  unended := (Unended.opened hopen h.balanced.guarded).concat (by simp [hclose])

end Clause

/-- A clause with or without a semicolon at its end. -/
inductive Sentence : List Token → Prop where
  | clause {tokens : List Token} : Clause tokens → Sentence tokens
  | ended {tokens : List Token} {semicolon : Token} : Clause tokens →
      semicolon.kind = .semicolon → Sentence (tokens ++ [semicolon])

theorem Sentence.contents {tokens : List Token} (h : Sentence tokens) : Contents tokens := by
  cases h with
  | clause h => exact h.toContents
  | ended h hkind =>
    exact h.toContents.append
      ⟨.single (by simp [hkind]) (by simp [hkind]), .cons (by simp [hkind]) .nil⟩

/-- A clause may be put before a sentence. -/
theorem Sentence.append {first second : List Token} (hfirst : Clause first)
    (hsecond : Sentence second) : Sentence (first ++ second) := by
  cases hsecond with
  | clause h => exact .clause (hfirst.append h)
  | ended h hkind =>
    rw [← List.append_assoc]
    exact .ended (hfirst.append h) hkind

/-- Legal guarded tokens of which no semicolon stands outside all braces, as a sentence starts. -/
structure Unfinished (tokens : List Token) : Prop extends Begun tokens where
  unended : Unended tokens

namespace Unfinished

/-- A clause may be put before. -/
theorem append {first second : List Token} (hfirst : Clause first) (hsecond : Unfinished second) :
    Unfinished (first ++ second) :=
  ⟨.append hfirst.toContents hsecond.toBegun,
    hfirst.unended.append hfirst.balanced hsecond.unended⟩

/-- What starts a block may follow its opening brace. -/
theorem opened {opening : Token} {tokens : List Token} (hopen : opening.kind = .openCurly)
    (h : Begun tokens) : Unfinished (opening :: tokens) where
  guarded := h.guarded.opened hopen
  legal := .cons (by simp [hopen]) h.legal
  unended := .opened hopen h.guarded

theorem of_clause {tokens : List Token} (h : Clause tokens) : Unfinished tokens :=
  ⟨h.begun, h.unended⟩

end Unfinished

end LetScript
