import LetScript.Proofs.Tiling

/-!
# Texts with a space between each two tokens

The tokens of a source in ASCII can be written one after the other with single spaces between
them. A space belongs to no token and ends every one, so each text is read again on its own: no
two of them run together, and none is read as more than one token. This holds of the bytes that
start no token as well.

Outside ASCII it does not hold: the text of an illegal byte is a character of two bytes.
-/

namespace LetScript

/-- The texts of the tokens with a space between each two. -/
def spaced (tokens : List Token) : String := " ".intercalate (tokens.map Token.literal)

/-- The text of the token is read as the token again. -/
def Token.Rereads (token : Token) : Prop :=
  ∃ byte more, Utf8.encode token.literal = byte :: more ∧ isSeparator byte = false ∧
    longestToken byte more = (token.kind, byte :: more) ∧ latinText (byte :: more) = token.literal

/-- What starts with a space starts with a separator. -/
theorem isSeparator_of_mem_space {bytes : List UInt8} {byte : UInt8}
    (h : byte ∈ (Utf8.encode " " ++ bytes).head?) : isSeparator byte := by
  obtain rfl := Option.some.inj h
  rfl

namespace Lexer

variable {lexer after : Lexer} {token : Token}

/-- A token drawn from bytes in ASCII is read again from its text. -/
theorem rereads_of_next? (hascii : ∀ byte ∈ lexer.rest, byte < 0x80)
    (hnext : lexer.next? = some (token, after)) : token.Rereads := by
  obtain ⟨byte, rest, hrest, rfl, rfl⟩ := next?_eq_some_iff.mp hnext
  have hseparator := isSeparator_of_skipSeparators hrest
  by_cases hkind : (longestToken byte rest).1 = .illegal
  · have hbyte : byte < 0x80 := by
      refine hascii byte ?_
      rw [(passes_skipSeparators lexer).rest_eq, hrest]
      simp
    have hagain := longestToken_of_illegal
      (longestToken_illegal_iff.mpr (longestToken_illegal_iff.mp hkind) :
        (longestToken byte []).1 = .illegal)
    rw [longestToken_of_illegal hkind]
    exact ⟨byte, [], encode_latinText (List.forall_mem_singleton.mpr hbyte), hseparator, hagain,
      rfl⟩
  · have hnone : ∀ other ∈ ([] : List UInt8).head?,
        (longestToken byte rest).1.absorbs other = false := by simp
    obtain ⟨first, more, hencode, hlongest, htext⟩ :=
      (spells_longestToken hkind).exists_longestToken hnone
    rw [List.append_nil] at hlongest
    have hmem : first ∈ (longestToken byte rest).2 := by
      rw [← encode_latinText_longestToken hkind, hencode]
      exact List.mem_cons_self
    exact ⟨first, more, hencode, isSeparator_of_mem_longestToken hseparator first hmem, hlongest,
      htext⟩

theorem rereads_of_mem_content (hascii : ∀ byte ∈ lexer.rest, byte < 0x80)
    (hmem : token ∈ lexer.content) : token.Rereads := by
  fun_induction content lexer with
  | case1 => contradiction
  | case2 lexer first after hnext _ ih =>
    rcases List.mem_cons.mp hmem with rfl | hrest
    · exact rereads_of_next? hascii hnext
    · obtain ⟨bytes, hpasses, -⟩ := passes_of_next? hnext
      have hsuffix := ((passes_skipSeparators lexer).trans hpasses).rest_eq
      refine ih (fun byte hbyte => hascii byte ?_) hrest
      rw [hsuffix]
      exact List.mem_append_right _ hbyte

end Lexer

namespace ReadsAs

variable {bytes : List UInt8} {tokens : List Token}

/-- A separator ends the token before it. -/
theorem rereads {token : Token} (htoken : token.Rereads)
    (hbytes : ∀ byte ∈ bytes.head?, isSeparator byte) (h : ReadsAs bytes tokens) :
    ReadsAs (Utf8.encode token.literal ++ bytes) (token :: tokens) := by
  obtain ⟨byte, more, hencode, hseparator, hlongest, htext⟩ := htoken
  refine cons hencode hseparator ?_ htext h
  cases bytes with
  | nil => rwa [List.append_nil]
  | cons separator rest => rwa [longestToken_append_separator (hbytes separator rfl)]

/-- Texts with a space between each two are read again one by one, whatever separator comes after
the last one. -/
theorem spaced (htokens : ∀ token ∈ tokens, token.Rereads)
    (hbytes : ∀ byte ∈ bytes.head?, isSeparator byte) (h : ReadsAs bytes []) :
    ReadsAs (Utf8.encode (spaced tokens) ++ bytes) tokens := by
  induction tokens with
  | nil => exact h
  | cons token rest ih =>
    have htoken := htokens token List.mem_cons_self
    have hrest := ih fun other hmem => htokens other (List.mem_cons_of_mem _ hmem)
    cases rest with
    | nil => exact rereads htoken hbytes h
    | cons next rest =>
      rw [LetScript.spaced, List.map_cons, List.map_cons, String.intercalate_cons_cons,
        Utf8.encode_append, Utf8.encode_append, List.append_assoc, List.append_assoc]
      exact rereads htoken (fun _ => isSeparator_of_mem_space) hrest.space

end ReadsAs

/-- A space at the end of the texts changes nothing. -/
theorem ReadsAs.spaced_concat {tokens : List Token} (htokens : ∀ token ∈ tokens, token.Rereads)
    {last : Token} (hlast : last.literal = "") :
    ReadsAs (Utf8.encode (LetScript.spaced (tokens ++ [last]))) tokens := by
  cases tokens with
  | nil =>
    rw [LetScript.spaced, List.nil_append, List.map_singleton, String.intercalate_singleton, hlast]
    exact .nil
  | cons token rest =>
    have hspaced := spaced htokens (fun _ => isSeparator_of_mem_space) ReadsAs.nil.space
    rw [List.append_nil] at hspaced
    rw [LetScript.spaced, List.map_append, String.intercalate_append_of_ne_nil (by simp) (by simp),
      List.map_singleton, String.intercalate_singleton, hlast, String.append_empty,
      Utf8.encode_append]
    exact hspaced

/-- Token lists are the same before the end of the input just if they are with it. -/
theorem sameTokens_tokenize_iff {source source' : String} {file file' : Option String} :
    SameTokens (tokenize source file) (tokenize source' file') ↔
      SameTokens (Lexer.ofString source file).content (Lexer.ofString source' file').content := by
  simp only [SameTokens, tokenize, Lexer.tokens, List.map_append, List.map_singleton,
    Token.relocate_endOfInput]
  exact List.append_left_inj _

/-- The tokens of a source in ASCII, written with single spaces between them, are the tokens of
what is written. It makes no difference whether the end of the input, whose text is empty, is
among them. -/
theorem sameTokens_tokenize_spaced {source : String}
    (hascii : ∀ c ∈ source.toList, c.toNat < 0x80) (file file' : Option String)
    {tokens : List Token}
    (htokens : tokens = tokenize source file ∨ tokens = (tokenize source file).dropLast) :
    SameTokens (tokenize source file) (tokenize (spaced tokens) file') := by
  have hbytes : ∀ byte ∈ (Lexer.ofString source file).rest, byte < 0x80 := by
    intro byte hmem
    rw [Lexer.ofString, (exists_latinText hascii).1] at hmem
    obtain ⟨c, hc, rfl⟩ := List.mem_map.mp hmem
    have hlt : c.val.toNat < 0x80 := hascii c hc
    rw [UInt8.lt_iff_toNat_lt, Char.toUInt8, UInt32.toNat_toUInt8]
    exact Nat.lt_of_le_of_lt (Nat.mod_le ..) hlt
  have hrereads : ∀ token ∈ (Lexer.ofString source file).content, token.Rereads :=
    fun token => Lexer.rereads_of_mem_content hbytes
  have hreads : ReadsAs (Utf8.encode (spaced tokens)) (Lexer.ofString source file).content := by
    rcases htokens with rfl | rfl
    · exact ReadsAs.spaced_concat hrereads rfl
    · rw [tokenize, Lexer.tokens, List.dropLast_concat]
      simpa using ReadsAs.spaced hrereads (by simp) .nil
  exact sameTokens_tokenize_iff.mpr (hreads (Lexer.ofString (spaced tokens) file') rfl).symm

end LetScript
