import LetScript.Proofs.Segments
import LetScript.Proofs.Spacing

/-!
# Reading numbered tokens

Where a token stands in its source is one thing and which token it is in the list is another.
Numbered tokens record the second in place of the first: their spans are made of their indices.
Reading them gives a program and diagnostics that speak of tokens by their numbers, and the
reading of a source comes from this by putting each token's place for its number. Since the
numbered tokens of two sources are the same wherever kinds and texts are, the sources are read
alike, token for token.

If every token has a position of its own, the numbers are found again from the places.
-/

namespace LetScript

/-- The number of a token in place of its position. -/
def Position.number (index : Nat) : Position := ⟨index, ""⟩

/-- The number of a token in place of its span. -/
def Span.number (index : Nat) : Span := ⟨.number index, .number (index + 1)⟩

/-- The tokens with their numbers in place of their spans. -/
def numbered (tokens : List Token) : List Token :=
  tokens.mapIdx fun index token => { token with span := .number index }

namespace Relocation

/-- Puts the places of the tokens for their numbers. -/
def places (tokens : List Token) : Relocation where
  position p := (tokens[p.offset]?.map Token.position).getD .null
  span s :=
    if s.start = s.stop then
      ⟨(tokens[s.start.offset]?.map Token.position).getD .null,
        (tokens[s.start.offset]?.map Token.position).getD .null⟩
    else
      (tokens[s.start.offset]?.map Token.span).getD .null
  start_span s := by
    split
    · rfl
    · cases tokens[s.start.offset]? <;> rfl
  span_empty _ := if_pos rfl

/-- Puts the numbers of the tokens for their places. -/
def numbers (tokens : List Token) : Relocation where
  position p := .number ((tokens.map Token.position).idxOf p)
  span s :=
    if s.start = s.stop then
      ⟨.number ((tokens.map Token.position).idxOf s.start),
        .number ((tokens.map Token.position).idxOf s.start)⟩
    else
      .number ((tokens.map Token.position).idxOf s.start)
  start_span s := by split <;> rfl
  span_empty _ := if_pos rfl

variable {tokens : List Token} {index : Nat} {token : Token}

theorem position_places (h : tokens[index]? = some token) :
    (places tokens).position (.number index) = token.position := by
  simp [places, Position.number, h]

theorem span_places (h : tokens[index]? = some token) :
    (places tokens).span (.number index) = token.span := by
  simp [places, Span.number, Position.number, h]

/-- Where no position comes twice, the number of a position is that of its token. -/
theorem position_numbers (hnodup : (tokens.map Token.position).Nodup)
    (h : tokens[index]? = some token) :
    (numbers tokens).position token.position = .number index := by
  obtain ⟨hlt, rfl⟩ := List.getElem?_eq_some_iff.mp h
  have hidx := hnodup.idxOf_getElem index (by simpa using hlt)
  rw [List.getElem_map] at hidx
  simp only [numbers, hidx]

theorem span_numbers (hnodup : (tokens.map Token.position).Nodup)
    (h : tokens[index]? = some token) (hne : token.span.start ≠ token.span.stop) :
    (numbers tokens).span token.span = .number index := by
  have hposition := position_numbers hnodup h
  simp only [numbers, Token.position, Position.number, Position.mk.injEq, and_true] at hposition
  simp only [numbers, if_neg hne, hposition]

end Relocation

/-- Tokens of the same kinds and texts are the same by their numbers. -/
theorem SameTokens.numbered_eq {tokens tokens' : List Token} (h : SameTokens tokens tokens') :
    numbered tokens = numbered tokens' := by
  have hforget (tokens : List Token) :
      numbered (tokens.map (Token.relocate .erase)) = numbered tokens := by
    refine List.ext_getElem? fun index => ?_
    simp [numbered, Token.relocate, Function.comp_def]
  rw [← hforget, h, hforget]

/-- The cursor on the first of the numbered tokens. -/
def Cursor.ofNumbered (tokens : List Token) : Cursor :=
  .ofTokens (numbered tokens) (.number tokens.length)

section Source

variable (source : String) (file : Option String)

theorem getElem?_tokenize {index : Nat} {token : Token}
    (h : (Lexer.ofString source file).content[index]? = some token) :
    (tokenize source file)[index]? = some token := by
  have hlt := (List.getElem?_eq_some_iff.mp h).1
  rw [tokenize, Lexer.tokens, List.getElem?_append_left hlt, h]

theorem getElem?_tokenize_length :
    (tokenize source file)[(Lexer.ofString source file).content.length]? =
      some (.endOfInput (Lexer.ofString source file).finish) := by
  simp [tokenize, Lexer.tokens]

/-- The tokens of a source are the numbered ones in their places. -/
theorem ofNumbered_relocate_places :
    (Cursor.ofNumbered (Lexer.ofString source file).content).relocate
      (.places (tokenize source file)) = .ofString source file := by
  rw [Cursor.ofNumbered, Cursor.ofTokens_relocate,
    Relocation.position_places (getElem?_tokenize_length source file)]
  congr 1
  refine List.ext_getElem? fun index => ?_
  cases h : (Lexer.ofString source file).content[index]? with
  | none => simp [numbered, h]
  | some token =>
    simp [numbered, h, Token.relocate, Relocation.span_places (getElem?_tokenize source file h)]

variable {source}

/-- In a source whose offsets are all recorded, the numbered tokens are found from the places. -/
theorem ofString_relocate_numbers (hsize : source.utf8ByteSize ≤ Position.maxOffset) :
    (Cursor.ofString source file).relocate (.numbers (tokenize source file)) =
      .ofNumbered (Lexer.ofString source file).content := by
  have hnodup := nodup_positions hsize file
  have htiles := Lexer.tiles_ofString hsize file
  have hend := Relocation.position_numbers hnodup (getElem?_tokenize_length source file)
  rw [Cursor.ofString, Cursor.ofLexer, Cursor.ofTokens_relocate, Cursor.ofNumbered]
  rw [Token.endOfInput, Token.position] at hend
  rw [hend]
  congr 1
  refine List.ext_getElem? fun index => ?_
  cases h : (Lexer.ofString source file).content[index]? with
  | none => simp [numbered, h]
  | some token =>
    have hlt := (htiles.fits token (List.mem_of_getElem? h)).start_lt_stop
    have hne : token.span.start ≠ token.span.stop := fun heq => by simp [heq] at hlt
    simp [numbered, h, Token.relocate,
      Relocation.span_numbers hnodup (getElem?_tokenize source file h) hne]

end Source

/-- The diagnostics of reading numbered tokens tell numbers of these or of the end of the input. -/
theorem exists_number_of_mem_diagnostics {tokens : List Token} {diagnostic : Diagnostic}
    (h : diagnostic ∈
      Attempt.diagnostics (attempts Table.standard.statement (.ofNumbered tokens))) :
    ∃ index ≤ tokens.length, diagnostic.position = .number index := by
  have hyields := yields_attempts (c := .ofNumbered tokens) fun _ => rfl
  rcases hyields.exists_position h with ⟨token, hmem, hposition⟩ | hposition
  · rw [← tokens_eq_flatten] at hmem
    obtain ⟨index, hlt, rfl⟩ := List.mem_mapIdx.mp hmem
    exact ⟨index, Nat.le_of_lt hlt, hposition⟩
  · exact ⟨tokens.length, Nat.le_refl _, hposition⟩

/-- The reading of a source is the given one of its numbered tokens, with their places for the
numbers. -/
structure ReadsNumbered (source : String) (file : Option String) (trees : List Stmt)
    (refusals : List Diagnostic) : Prop where
  statements_eq : (parse source file).1.statements =
    trees.map (Stmt.relocate (.places (tokenize source file)))
  diagnostics_eq : (parse source file).2 =
    refusals.map (Diagnostic.relocate (.places (tokenize source file)))
  /-- Each diagnostic stands at the token of its number. -/
  exists_number : ∀ refusal ∈ refusals, ∃ index < (tokenize source file).length,
    refusal.position = .number index
  /-- The numbers are found from the places if all offsets are recorded. -/
  trees_eq : source.utf8ByteSize ≤ Position.maxOffset →
    (parse source file).1.statements.map (Stmt.relocate (.numbers (tokenize source file))) = trees
  refusals_eq : source.utf8ByteSize ≤ Position.maxOffset →
    (parse source file).2.map (Diagnostic.relocate (.numbers (tokenize source file))) = refusals

/-- Every source is read as its numbered tokens are. -/
theorem ReadsNumbered.ofNumbered (source : String) (file : Option String) :
    ReadsNumbered source file
      (Attempt.program (attempts Table.standard.statement
        (.ofNumbered (Lexer.ofString source file).content))).statements
      (Attempt.diagnostics (attempts Table.standard.statement
        (.ofNumbered (Lexer.ofString source file).content))) where
  statements_eq := by
    rw [← Attempt.statements_program_relocate, ← attempts_relocate, ofNumbered_relocate_places]
    rfl
  diagnostics_eq := by
    rw [← Attempt.diagnostics_relocate, ← attempts_relocate, ofNumbered_relocate_places]
    rfl
  exists_number refusal hmem := by
    obtain ⟨index, hle, hposition⟩ := exists_number_of_mem_diagnostics hmem
    refine ⟨index, ?_, hposition⟩
    rw [tokenize, Lexer.tokens, List.length_append, List.length_singleton]
    omega
  trees_eq hsize := by
    rw [parse, ← Attempt.statements_program_relocate, sourceAttempts, ← attempts_relocate,
      ofString_relocate_numbers file hsize]
  refusals_eq hsize := by
    rw [parse, ← Attempt.diagnostics_relocate, sourceAttempts, ← attempts_relocate,
      ofString_relocate_numbers file hsize]

/-- Sources whose tokens have the same kinds and texts are read alike, token for token: both are
read as the same numbered tokens. In particular, a source in ASCII is read like the texts of its
tokens with single spaces between them. -/
theorem readsNumbered_of_sameTokens (source : String) (file : Option String) :
    (∀ (source' : String) (file' : Option String),
      SameTokens (tokenize source file) (tokenize source' file') →
        ∃ trees refusals, ReadsNumbered source file trees refusals ∧
          ReadsNumbered source' file' trees refusals) ∧
    ((∀ c ∈ source.toList, c.toNat < 0x80) → ∀ (file' : Option String) (tokens : List Token),
      tokens = tokenize source file ∨ tokens = (tokenize source file).dropLast →
        SameTokens (tokenize source file) (tokenize (spaced tokens) file') ∧
          ∃ trees refusals, ReadsNumbered source file trees refusals ∧
            ReadsNumbered (spaced tokens) file' trees refusals) := by
  have hsame (source' : String) (file' : Option String)
      (h : SameTokens (tokenize source file) (tokenize source' file')) :
      ∃ trees refusals, ReadsNumbered source file trees refusals ∧
        ReadsNumbered source' file' trees refusals := by
    have hcontent := sameTokens_tokenize_iff.mp h
    have hlength := congrArg List.length hcontent
    rw [List.length_map, List.length_map] at hlength
    have hcursor : Cursor.ofNumbered (Lexer.ofString source' file').content =
        .ofNumbered (Lexer.ofString source file).content := by
      rw [Cursor.ofNumbered, Cursor.ofNumbered, hcontent.numbered_eq, hlength]
    exact ⟨_, _, .ofNumbered source file, hcursor ▸ .ofNumbered source' file'⟩
  refine ⟨hsame, fun hascii file' tokens htokens => ?_⟩
  have htext := sameTokens_tokenize_spaced hascii file file' htokens
  exact ⟨htext, hsame _ _ htext⟩

/-- A broken binding, an operator of two bytes and a byte that starts no token are read alike with
more blanks between them and with exactly one. -/
theorem readsNumbered_of_blanks :
    ∃ source wide : String, wide ≠ source ∧
      SameTokens (tokenize source none) (tokenize wide (some "wide")) ∧
      (∃ trees refusals, ReadsNumbered source none trees refusals ∧
        ReadsNumbered wide (some "wide") trees refusals) ∧
      spaced (tokenize source none) = "let x = 1 ; let y != 2 ; - z @ " ∧
      ∃ trees refusals, ReadsNumbered source none trees refusals ∧
        ReadsNumbered "let x = 1 ; let y != 2 ; - z @ " none trees refusals := by
  let source := "let x=1;let y!=2;-z@"
  let wide := "let  x=1 ;\nlet y!= 2;\t-z@"
  have hsame : SameTokens (tokenize source none) (tokenize wide (some "wide")) := by decide +kernel
  have hascii : ∀ c ∈ source.toList, c.toNat < 0x80 := by simp [source]
  have htext : spaced (tokenize source none) = "let x = 1 ; let y != 2 ; - z @ " := by
    decide +kernel
  obtain ⟨halike, hspaced⟩ := readsNumbered_of_sameTokens source none
  obtain ⟨-, hreads⟩ := hspaced hascii none _ (.inl rfl)
  exact ⟨source, wide, by decide, hsame, halike wide (some "wide") hsame, htext, htext ▸ hreads⟩

end LetScript
