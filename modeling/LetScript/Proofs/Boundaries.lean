import LetScript.Proofs.Lexing

/-!
# Places between two characters

A lexer counts bytes, and a character outside ASCII has several, each of which is a token of its
own that is illegal. The lexer may therefore come to stand inside a character, but never after a
token of the language: such a token ends with an ASCII character, which has a single byte. Where
the lexer stands between two characters, what is left of the source is a source again, and it is
read as that source is, further on.
-/

namespace LetScript

namespace Utf8

/-- The bytes of a text are those of its characters. -/
theorem encode_ofList (chars : List Char) :
    encode (String.ofList chars) = chars.flatMap String.utf8EncodeChar := by
  simp [encode, List.utf8Encode]

theorem length_encode (text : String) : (encode text).length = text.utf8ByteSize := by
  rw [encode, Array.length_toList, ← String.size_toByteArray]
  rfl

/-- Different texts have different bytes. -/
theorem encode_injective : Function.Injective encode := fun first second h =>
  Option.some.inj ((decode?_encode first).symm.trans (h ▸ decode?_encode second))

/-- A character with an ASCII byte has no other. -/
theorem utf8EncodeChar_eq {char : Char} {byte : UInt8} (h : byte ∈ String.utf8EncodeChar char)
    (hascii : byte < 0x80) : String.utf8EncodeChar char = [byte] := by
  rw [UInt8.lt_iff_toNat_lt] at hascii
  unfold String.utf8EncodeChar at h ⊢
  simp only at h ⊢
  split at h
  · simp_all
  · split at h
    · simp only [List.mem_cons, List.not_mem_nil, or_false] at h
      rcases h with rfl | rfl <;> simp at hascii <;> omega
    · split at h
      · simp only [List.mem_cons, List.not_mem_nil, or_false] at h
        rcases h with rfl | rfl | rfl <;> simp at hascii <;> omega
      · simp only [List.mem_cons, List.not_mem_nil, or_false] at h
        rcases h with rfl | rfl | rfl | rfl <;> simp at hascii <;> omega

/-- Where an ASCII byte stands among the bytes of characters, one of them ends. -/
theorem exists_append_of_flatMap {chars : List Char} {before after : List UInt8} {byte : UInt8}
    (h : chars.flatMap String.utf8EncodeChar = before ++ byte :: after) (hascii : byte < 0x80) :
    ∃ front rest, chars = front ++ rest ∧
      front.flatMap String.utf8EncodeChar = before ++ [byte] ∧
      rest.flatMap String.utf8EncodeChar = after := by
  induction chars generalizing before with
  | nil => simp at h
  | cons char chars ih =>
    rw [List.flatMap_cons] at h
    rcases List.append_eq_append_iff.mp h with ⟨more, rfl, hmore⟩ | ⟨more, hchar, hmore⟩
    · obtain ⟨front, rest, rfl, hfront, hrest⟩ := ih hmore
      refine ⟨char :: front, rest, rfl, ?_, hrest⟩
      rw [List.flatMap_cons, hfront, List.append_assoc]
    · cases more with
      | nil =>
        have hhere : chars.flatMap String.utf8EncodeChar = [] ++ byte :: after := by
          simpa using hmore.symm
        obtain ⟨front, rest, rfl, hfront, hrest⟩ := ih hhere
        refine ⟨char :: front, rest, rfl, ?_, hrest⟩
        rw [List.flatMap_cons, hfront, hchar]
        simp
      | cons other more =>
        -- The byte belongs to this character, which then has no other one.
        obtain ⟨rfl, rfl⟩ := List.cons.inj hmore
        have hmem : byte ∈ String.utf8EncodeChar char := by simp [hchar]
        have hone := utf8EncodeChar_eq hmem hascii
        have hlengths := congrArg List.length (hchar.symm.trans hone)
        simp only [List.length_append, List.length_cons, List.length_nil] at hlengths
        obtain rfl : before = [] := List.length_eq_zero_iff.mp (by omega)
        obtain rfl : more = [] := List.length_eq_zero_iff.mp (by omega)
        exact ⟨[char], chars, rfl, by simp [hone], rfl⟩

/-- A text may be cut after an ASCII byte. -/
theorem exists_append_of_ascii {text : String} {before after : List UInt8} {byte : UInt8}
    (h : encode text = before ++ [byte] ++ after) (hascii : byte < 0x80) :
    ∃ front rest, text = front ++ rest ∧ encode front = before ++ [byte] ∧ encode rest = after := by
  rw [List.append_assoc, List.singleton_append, ← String.ofList_toList (s := text),
    encode_ofList] at h
  obtain ⟨front, rest, htext, hfront, hrest⟩ := exists_append_of_flatMap h hascii
  refine ⟨.ofList front, .ofList rest, ?_, ?_, ?_⟩
  · rw [← String.ofList_append, ← htext, String.ofList_toList]
  · rw [encode_ofList, hfront]
  · rw [encode_ofList, hrest]

/-- A text may be cut before an ASCII byte. -/
theorem exists_append_before_ascii {text : String} {before after : List UInt8} {byte : UInt8}
    (h : encode text = before ++ byte :: after) (hascii : byte < 0x80) :
    ∃ front rest, text = front ++ rest ∧ encode front = before ∧ encode rest = byte :: after := by
  have hcut : encode text = before ++ [byte] ++ after := by
    rw [h, List.append_assoc, List.singleton_append]
  obtain ⟨front, rest, rfl, hfront, hrest⟩ := exists_append_of_ascii hcut hascii
  -- The last character of the front has this byte and no other.
  rw [← String.ofList_toList (s := front), encode_ofList] at hfront
  rcases List.eq_nil_or_concat' front.toList with hnil | ⟨init, last, hlast⟩
  · simp [hnil] at hfront
  · rw [hlast, List.flatMap_append, List.flatMap_singleton] at hfront
    have hmem : byte ∈ String.utf8EncodeChar last := by
      have hend := congrArg List.getLast? hfront
      rw [List.getLast?_append_of_ne_nil _ String.utf8EncodeChar_ne_nil, List.getLast?_concat]
        at hend
      exact List.mem_of_getLast? hend
    have hone := utf8EncodeChar_eq hmem hascii
    rw [hone] at hfront
    refine ⟨.ofList init, .ofList [last] ++ rest, ?_, ?_, ?_⟩
    · rw [← String.append_assoc, ← String.ofList_append, ← hlast, String.ofList_toList]
    · rw [encode_ofList]
      exact List.append_cancel_right hfront
    · rw [encode_append, encode_ofList, List.flatMap_singleton, hone, hrest]
      rfl

end Utf8

namespace Lexer

/-- The lexer stands between two characters of the source: what comes is what is left of it. -/
def Stands (source : String) (file : Option String) (lexer : Lexer) : Prop :=
  ∃ front rest, source = front ++ rest ∧
    lexer = (Lexer.ofString rest file).moved front.utf8ByteSize

namespace Stands

variable {source : String} {file : Option String} {lexer after : Lexer}

theorem ofString (source : String) (file : Option String) :
    Stands source file (.ofString source file) :=
  ⟨"", source, by simp, by simp [moved]⟩

/-- After an ASCII byte the lexer stands between two characters. -/
theorem of_passes (h : Stands source file lexer) {bytes : List UInt8} {byte : UInt8}
    (hpasses : lexer.Passes (bytes ++ [byte]) after) (hascii : byte < 0x80) :
    Stands source file after := by
  obtain ⟨front, rest, rfl, rfl⟩ := h
  have hbytes : Utf8.encode rest = bytes ++ [byte] ++ after.rest := hpasses.rest_eq
  obtain ⟨middle, rest, rfl, hmiddle, hrest⟩ := Utf8.exists_append_of_ascii hbytes hascii
  refine ⟨front ++ middle, rest, String.append_assoc.symm, ?_⟩
  have hoffset : after.offset = 0 + (front ++ middle).utf8ByteSize := by
    rw [hpasses.offset_eq, ← hmiddle, Utf8.length_encode, String.utf8ByteSize_append,
      ← Nat.add_assoc]
    rfl
  cases after
  simp only [moved, Lexer.ofString, Lexer.mk.injEq]
  exact ⟨hpasses.file_eq, hoffset, hrest.symm⟩

theorem skipSeparators (h : Stands source file lexer) :
    Stands source file lexer.skipSeparators := by
  have hpasses := passes_skipSeparators lexer
  rcases List.eq_nil_or_concat' (lexer.rest.takeWhile isSeparator) with hnil | ⟨init, last, hlast⟩
  · rw [Lexer.skipSeparators, hnil]
    exact h
  · have hmem : last ∈ lexer.rest.takeWhile isSeparator := by simp [hlast]
    rw [hlast] at hpasses
    exact h.of_passes hpasses (lt_of_isSeparator (List.mem_takeWhile_imp hmem))

/-- So it does after a token of the language. -/
theorem of_draws (h : Stands source file lexer) {tokens : List Token} {token : Token}
    (hdraws : lexer.Draws (tokens ++ [token]) after) (hlegal : token.kind ≠ .illegal) :
    Stands source file after := by
  obtain ⟨bytes, byte, hpasses, hascii⟩ := hdraws.exists_passes_of_legal hlegal
  exact h.of_passes hpasses hascii

/-- So it does after tokens of the language, even if there are none. -/
theorem of_draws_of_legal (h : Stands source file lexer) {tokens : List Token}
    (hdraws : lexer.Draws tokens after) (hlegal : ∀ token ∈ tokens, token.kind ≠ .illegal) :
    Stands source file after := by
  rcases List.eq_nil_or_concat' tokens with rfl | ⟨init, last, rfl⟩
  · cases hdraws
    exact h
  · exact h.of_draws hdraws (hlegal last (by simp))

theorem isValid (h : Stands source file lexer) :
    String.Pos.Raw.IsValid source ⟨lexer.offset⟩ := by
  obtain ⟨front, rest, rfl, rfl⟩ := h
  refine String.Pos.Raw.isValid_iff_exists_append.mpr ⟨front, rest, rfl, ?_⟩
  simp [moved, Lexer.ofString, String.rawEndPos]

/-- The end of a source stands after its last character. -/
theorem offset_toEnd (h : Stands source file lexer) : lexer.toEnd.offset = source.utf8ByteSize := by
  obtain ⟨front, rest, rfl, rfl⟩ := h
  simp only [moved, toEnd, skip, Lexer.ofString, Utf8.length_encode, String.utf8ByteSize_append]
  omega

end Stands

end Lexer

end LetScript
