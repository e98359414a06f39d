import LetScript.Proofs.Concatenation
import LetScript.Proofs.Tiling

/-!
# Where a source may be cut

The tokens of two sources one after the other are those of the first and then those of the second,
further on, unless the last token of the first goes on with the second. That is the only way in
which the two can depend on each other. It takes a token that ends with the first source, and a
first character of the second that the token would have absorbed: a letter after a word, a digit
after an integer, or `=` after `=` or `!`.
-/

namespace LetScript

namespace Kind

/-- The kinds of words: identifiers and keywords. -/
def isWord : Kind → Bool
  | identifier | kwFn | kwLet | kwTrue | kwFalse | kwIf | kwElse | kwReturn => true
  | _ => false

/-- A token of the kind goes on with the character. -/
def GoesOnWith (kind : Kind) (c : Char) : Prop :=
  (kind.isWord ∧ isWordChar c) ∨ (kind = integer ∧ c.isDigit) ∨
    ((kind = assignment ∨ kind = not) ∧ c = '=')

instance (kind : Kind) (c : Char) : Decidable (kind.GoesOnWith c) :=
  inferInstanceAs (Decidable (_ ∨ _ ∨ _))

end Kind

/-- The last token of the first source ends where this source does, and goes on with the second. -/
def Fuses (first second : String) (file : Option String) : Prop :=
  ∃ token ∈ (tokenize first file).dropLast.getLast?,
    token.span.stop.offset = first.utf8ByteSize ∧ ∃ c ∈ second.toList.head?, token.kind.GoesOnWith c

instance (first second : String) (file : Option String) : Decidable (Fuses first second file) :=
  inferInstanceAs (Decidable (∃ _ ∈ _, _))

section Absorbs

variable {byte : UInt8} {rest more : List UInt8}

theorem equalsByte_eq (byte : UInt8) : (0x3d == byte) = ('=' == Char.ofUInt8 byte) := by
  rw [Bool.eq_iff_iff, beq_iff_eq, beq_iff_eq]
  simp [val_ofUInt8, Char.ext_iff, ← UInt8.toNat_inj, ← UInt32.toNat_inj]

theorem lt_of_equalsByte {byte : UInt8} (h : 0x3d == byte) : byte < 0x80 := by
  rw [← eq_of_beq h]
  decide

theorem lt_of_equalsSign {c : Char} (h : '=' == c) : c.toNat < 0x80 := by
  rw [← eq_of_beq h]
  decide

/-- A token goes on with the first character of a text just if it absorbs the first byte. -/
theorem Kind.absorbs_iff (kind : Kind) {text : String} (h : (Utf8.encode text).head? = some byte) :
    kind.absorbs byte ↔ ∃ c ∈ text.toList.head?, kind.GoesOnWith c := by
  obtain ⟨c, rest, hchars, hhead⟩ := exists_head_of_encode h
  have hword := head_utf8EncodeChar hhead isWordByte_eq lt_of_isWordByte lt_of_isWordChar
  have hdigit := head_utf8EncodeChar hhead isDigitByte_eq lt_of_isDigitByte lt_of_isDigit
  have hequals := head_utf8EncodeChar hhead equalsByte_eq lt_of_equalsByte lt_of_equalsSign
  rw [Bool.eq_iff_iff, beq_iff_eq, beq_iff_eq, eq_comm, eq_comm (a := '=')] at hequals
  rw [hchars]
  cases kind <;> simp [absorbs, GoesOnWith, isWord, hword, hdigit, hequals]

/-- A token that takes all the bytes is the same before a byte that it does not absorb. -/
theorem longestToken_append_of_absorbs (hall : (longestToken byte rest).2 = byte :: rest)
    (h : ∀ other ∈ more.head?, (longestToken byte rest).1.absorbs other = false) :
    longestToken byte (rest ++ more) = longestToken byte rest := by
  by_cases hillegal : (longestToken byte rest).1 = .illegal
  · rw [longestToken_of_illegal hillegal,
      longestToken_of_illegal (longestToken_illegal_iff.mpr (longestToken_illegal_iff.mp hillegal))]
  · obtain ⟨first, others, hencode, hlongest, -⟩ :=
      (spells_longestToken hillegal).exists_longestToken h
    rw [encode_latinText_longestToken hillegal, hall] at hencode
    obtain ⟨rfl, rfl⟩ := List.cons.inj hencode
    rw [hlongest, ← hall]

end Absorbs

namespace Lexer

variable {lexer : Lexer} {token : Token}

/-- The token is the last one, and the bytes end where it does. -/
def EndsWith (lexer : Lexer) (token : Token) : Prop :=
  ∃ init stop, lexer.Draws (init ++ [token]) stop ∧ stop.rest = []

/-- Bytes give the same tokens whatever comes after them, if the token that they end with does not
absorb it. -/
theorem content_followed_of_absorbs {more : List UInt8}
    (h : ∀ token, lexer.EndsWith token → ∀ byte ∈ more.head?, token.kind.absorbs byte = false) :
    (lexer.followed more).content = lexer.content ++ (lexer.toEnd.followed more).content := by
  fun_induction content lexer with
  | case1 lexer hnext => exact content_followed_of_next?_eq_none hnext more
  | case2 lexer token after hnext _ ih =>
    obtain ⟨bytes, hbytes, -⟩ := passes_of_next? hnext
    have hpasses := (passes_skipSeparators lexer).trans hbytes
    have hlast : ∀ last, after.EndsWith last → lexer.EndsWith last := by
      rintro last ⟨init, stop, hdraws, hstop⟩
      exact ⟨token :: init, stop, .cons hnext hdraws, hstop⟩
    rw [← hpasses.toEnd_eq, List.cons_append, ← ih fun last hends => h last (hlast last hends)]
    refine content_of_next? ?_
    by_cases hleft : after.rest = []
    · -- The bytes end with this token, and it could go on with what comes after them.
      have hends : lexer.EndsWith token := ⟨[], after, .cons hnext (.nil after), hleft⟩
      refine next?_followed_of_eq hnext fun byte rest hstart => ?_
      obtain ⟨other, others, hother, rfl, rfl⟩ := next?_eq_some_iff.mp hnext
      obtain ⟨rfl, rfl⟩ := List.cons.inj (hother.symm.trans hstart)
      replace hleft : (lexer.skipSeparators.rest).drop (longestToken other others).2.length = [] :=
        hleft
      rw [hstart, List.drop_eq_nil_iff] at hleft
      exact longestToken_append_of_absorbs
        ((prefix_longestToken other others).eq_of_length_le hleft) (h _ hends)
    · exact next?_followed hnext (.inl hleft) more

/-- The token that a source ends with is its last one, and it ends where the source does. -/
theorem EndsWith.getLast?_tokenize {source : String} {file : Option String}
    (h : (ofString source file).EndsWith token) (hsize : source.utf8ByteSize ≤ Position.maxOffset) :
    token ∈ (tokenize source file).dropLast.getLast? ∧
      token.span.stop.offset = source.utf8ByteSize := by
  obtain ⟨init, stop, hdraws, hstop⟩ := h
  have hcontent := hdraws.content_eq
  rw [content_of_next?_eq_none (next?_of_rest_eq_nil hstop), List.append_nil] at hcontent
  constructor
  · rw [tokenize, tokens, List.dropLast_concat, hcontent, List.getLast?_concat]
    rfl
  · obtain ⟨all, hall⟩ := hdraws.exists_passes
    have hoffset : stop.offset = source.utf8ByteSize := by
      have hbytes : Utf8.encode source = all ++ stop.rest := hall.rest_eq
      rw [hall.offset_eq, ← Utf8.length_encode, hbytes, hstop, List.append_nil]
      exact Nat.zero_add _
    obtain ⟨between, hinit, hlast⟩ := hdraws.split
    obtain ⟨bytes, hpasses⟩ := hinit.exists_passes
    cases hlast with
    | cons hnext hnil =>
      cases hnil
      rw [← Utf8.length_encode] at hsize
      obtain ⟨-, -, hend, -⟩ := fits_of_next? hsize (hpasses.rest_eq_drop rfl) hnext
      rw [hend, hoffset]

end Lexer

section Fuses

variable {first second : String} {file : Option String}

/-- A token that goes on with the second source is longer in the whole. -/
theorem Fuses.exists_notMem (h : Fuses first second file)
    (hsize : (first ++ second).utf8ByteSize ≤ Position.maxOffset) :
    ∃ token ∈ (tokenize first file).dropLast, token ∉ tokenize (first ++ second) file := by
  obtain ⟨token, hlast, hstop, c, hc, hgoes⟩ := h
  have hfirst : token ∈ (tokenize first file).dropLast := List.mem_of_getLast? hlast
  refine ⟨token, hfirst, fun hall => ?_⟩
  have hlegal : token.kind ≠ .eof := by
    rw [tokenize, Lexer.tokens, List.dropLast_concat] at hfirst
    exact Lexer.kind_ne_eof_of_mem_content hfirst
  have hfits := (Lexer.tiles_ofString hsize file).fits token
    (Lexer.mem_content_of_mem_tokenize hall hlegal)
  have hne : Utf8.encode second ≠ [] := by
    intro hnil
    rw [← List.length_eq_zero_iff, Utf8.length_encode, String.utf8ByteSize_eq_zero_iff] at hnil
    rw [hnil] at hc
    contradiction
  obtain ⟨byte, rest, hbyte⟩ := List.exists_cons_of_ne_nil hne
  have habsorbs := (token.kind.absorbs_iff (by rw [hbyte]; rfl)).mpr ⟨c, hc, hgoes⟩
  refine Bool.eq_false_iff.mp (hfits.longest byte ?_) habsorbs
  rw [hstop, ← Utf8.length_encode, Utf8.encode_append,
    List.getElem?_append_right (Nat.le_refl _), Nat.sub_self, hbyte]
  rfl

/-- A token that the first source ends with, and that does not go on with the second, does not
absorb its first byte. -/
theorem absorbs_of_not_fuses (h : ¬ Fuses first second file) {token : Token}
    (hends : (Lexer.ofString first file).EndsWith token)
    (hsize : first.utf8ByteSize ≤ Position.maxOffset) :
    ∀ byte ∈ (Utf8.encode second).head?, token.kind.absorbs byte = false := by
  intro byte hbyte
  by_contra habsorbs
  rw [Bool.not_eq_false, token.kind.absorbs_iff hbyte] at habsorbs
  obtain ⟨hlast, hstop⟩ := hends.getLast?_tokenize hsize
  exact h ⟨token, hlast, hstop, habsorbs⟩

end Fuses

/-- The tokens of two sources one after the other are those of the first, up to the end of the
input, and those of the second further on, just if the last token of the first does not go on with
the second. -/
theorem tokenize_append_iff (first second : String) (file : Option String)
    (hsize : (first ++ second).utf8ByteSize ≤ Position.maxOffset) :
    tokenize (first ++ second) file =
        (tokenize first file).dropLast ++
          (tokenize second file).map (Token.relocate (.translate first.utf8ByteSize)) ↔
      ¬ Fuses first second file := by
  constructor
  · intro heq hfuses
    obtain ⟨token, hmem, hnot⟩ := hfuses.exists_notMem hsize
    exact hnot (heq ▸ List.mem_append_left _ hmem)
  · intro hcut
    have hfirst : first.utf8ByteSize ≤ Position.maxOffset := by
      rw [String.utf8ByteSize_append] at hsize
      omega
    have hends (token : Token) (h : (Lexer.ofString first file).EndsWith token) :=
      absorbs_of_not_fuses hcut h hfirst
    have hcontent : (Lexer.ofString (first ++ second) file).content =
        (Lexer.ofString first file).content ++ (Lexer.ofString second file).content.map
          (Token.relocate (.translate first.utf8ByteSize)) := by
      rw [Lexer.ofString_append, Lexer.content_followed_of_absorbs hends,
        Lexer.followed_toEnd_ofString, Lexer.content_moved (position_translate hsize)]
      rfl
    rw [tokenize, tokenize, tokenize, Lexer.tokens, Lexer.tokens, Lexer.tokens, hcontent,
      finish_append hsize, List.dropLast_concat, List.map_append, List.map_singleton,
      Token.relocate_endOfInput, List.append_assoc]

/-- After `==` a source may be cut before another `=`. -/
theorem tokenize_append_of_equals :
    let first := "é let =="
    let second := "= 1;"
    (first ++ second).utf8ByteSize ≤ Position.maxOffset ∧ ¬ Fuses first second none ∧
      tokenize (first ++ second) none = (tokenize first none).dropLast ++
        (tokenize second none).map (Token.relocate (.translate first.utf8ByteSize)) := by
  intro first second
  have hsize : (first ++ second).utf8ByteSize ≤ Position.maxOffset := by decide +kernel
  have hcut : ¬ Fuses first second none := by
    rintro ⟨token, hmem, -, c, -, hgoes⟩
    have hkind : (tokenize first none).dropLast.getLast?.map Token.kind = some .equals := by
      decide +kernel
    rw [Option.mem_def.mp hmem, Option.map_some, Option.some.injEq] at hkind
    simp [hkind, Kind.GoesOnWith, Kind.isWord] at hgoes
  exact ⟨hsize, hcut, (tokenize_append_iff first second none hsize).mpr hcut⟩

/-- `!` goes on with `=`. -/
example : Fuses "a !" "= b" none := by
  refine ⟨⟨.not, "!", .ofLength 2 1 "shell"⟩, ?_, ?_, '=', rfl, .inr (.inr ⟨.inr rfl, rfl⟩)⟩
  · decide +kernel
  · decide +kernel

end LetScript
