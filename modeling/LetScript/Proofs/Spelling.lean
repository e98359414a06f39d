import LetScript.Proofs.Boundaries
import LetScript.Proofs.Layout

/-!
# How tokens are written

Each kind of token has its spelling. Operators, delimiters and keywords have a single one, an
identifier is a run of letters and underscores that is no keyword, and an integer is a run of
digits. The tokens of the language that a lexer draws are spelled in this way, and a text that
spells a kind is read as a token of this kind again, unless what comes after it goes on with it:
a word is not told apart from the word after it, nor `!` from `=`.
-/

namespace LetScript

/-- An ASCII letter or the underscore. -/
def isWordChar (c : Char) : Bool := c.isAlpha || c = '_'

namespace Kind

/-- The text that a kind is written as, for the kinds with only one. -/
def spelling? : Kind → Option String
  | assignment => some "="
  | equals => some "=="
  | not => some "!"
  | notEquals => some "!="
  | less => some "<"
  | greater => some ">"
  | plus => some "+"
  | dash => some "-"
  | slash => some "/"
  | star => some "*"
  | comma => some ","
  | semicolon => some ";"
  | openParen => some "("
  | closeParen => some ")"
  | openCurly => some "\x7b"
  | closeCurly => some "\x7d"
  | kwFn => some "fn"
  | kwLet => some "let"
  | kwTrue => some "true"
  | kwFalse => some "false"
  | kwIf => some "if"
  | kwElse => some "else"
  | kwReturn => some "return"
  | illegal | eof | identifier | integer => none

/-- The text is one that a token of the kind may be written as. -/
def Spells : Kind → String → Prop
  | identifier, text => text ≠ "" ∧ (∀ c ∈ text.toList, isWordChar c) ∧ ofWord text = identifier
  | integer, text => text ≠ "" ∧ ∀ c ∈ text.toList, c.isDigit
  | kind, text => kind.spelling? = some text

/-- Nothing is written as a byte that starts no token. -/
theorem Spells.ne_illegal {kind : Kind} {text : String} (h : kind.Spells text) :
    kind ≠ illegal := by
  rintro rfl
  simp [Spells, spelling?] at h

/-- The end of the input is not written. -/
theorem Spells.ne_eof {kind : Kind} {text : String} (h : kind.Spells text) : kind ≠ eof := by
  rintro rfl
  simp [Spells, spelling?] at h

/-- Whether a byte right after a token of the kind is taken for a part of the token. -/
def absorbs : Kind → UInt8 → Bool
  | identifier | kwFn | kwLet | kwTrue | kwFalse | kwIf | kwElse | kwReturn => isWordByte
  | integer => isDigitByte
  | assignment | not => (· = 0x3d)
  | _ => fun _ => false

end Kind

/-- The token's text is one that its kind is written as. -/
def Token.Spelled (token : Token) : Prop := token.kind.Spells token.literal

/-- A token of a kind with only one spelling. -/
def Token.ofKind (kind : Kind) : Token := ⟨kind, kind.spelling?.getD "", .null⟩

section Ascii

theorem isWordChar_eq (c : Char) :
    isWordChar c = (decide ('A'.val ≤ c.val ∧ c.val ≤ 'Z'.val) ||
      (decide ('a'.val ≤ c.val) && decide (c.val ≤ 'z'.val)) || decide (c = '_')) :=
  rfl

theorem val_ofUInt8 (byte : UInt8) : (Char.ofUInt8 byte).val = byte.toUInt32 := rfl

theorem isWordByte_eq (byte : UInt8) : isWordByte byte = isWordChar (Char.ofUInt8 byte) := by
  rw [Bool.eq_iff_iff, isWordChar_eq]
  simp [isWordByte, val_ofUInt8, UInt8.le_iff_toNat_le, UInt32.le_iff_toNat_le,
    ← UInt8.toNat_inj, Char.ext_iff, ← UInt32.toNat_inj, or_assoc]

theorem isDigitByte_eq (byte : UInt8) : isDigitByte byte = (Char.ofUInt8 byte).isDigit := by
  rw [Bool.eq_iff_iff]
  simp [isDigitByte, Char.isDigit, val_ofUInt8, UInt8.le_iff_toNat_le, UInt32.le_iff_toNat_le]

theorem ofUInt8_toUInt8 {c : Char} (h : c.toNat < 0x80) : Char.ofUInt8 c.toUInt8 = c := by
  have hlt : c.val.toNat < 0x80 := h
  apply Char.ext
  apply UInt32.toNat_inj.mp
  change c.val.toUInt8.toUInt32.toNat = c.val.toNat
  rw [UInt8.toNat_toUInt32, UInt32.toNat_toUInt8]
  omega

/-- The characters in ASCII are those of a single byte. -/
theorem utf8Size_eq_one_iff {c : Char} : c.utf8Size = 1 ↔ c.toNat < 0x80 := by
  rw [Char.utf8Size_eq_one_iff, UInt32.le_iff_toNat_le]
  exact Nat.lt_succ_iff.symm

/-- A character in ASCII is written as the byte of its number. -/
theorem utf8EncodeChar_of_ascii {c : Char} (h : c.toNat < 0x80) :
    String.utf8EncodeChar c = [c.toUInt8] :=
  String.utf8EncodeChar_eq_singleton (utf8Size_eq_one_iff.mpr h)

/-- An ASCII text has one byte for each character, and is read off these bytes. -/
theorem exists_latinText {text : String} (h : ∀ c ∈ text.toList, c.toNat < 0x80) :
    Utf8.encode text = text.toList.map Char.toUInt8 ∧ latinText (Utf8.encode text) = text := by
  have hencode : Utf8.encode text = text.toList.map Char.toUInt8 := by
    calc Utf8.encode text
        = text.toList.flatMap String.utf8EncodeChar := by
          rw [← Utf8.encode_ofList, String.ofList_toList]
      _ = text.toList.flatMap fun c => [c.toUInt8] :=
          List.flatMap_congr fun c hc => utf8EncodeChar_of_ascii (h c hc)
      _ = text.toList.map Char.toUInt8 := (List.map_eq_flatMap).symm
  refine ⟨hencode, ?_⟩
  have hback : (text.toList.map Char.toUInt8).map Char.ofUInt8 = text.toList := by
    rw [List.map_map]
    exact (List.map_congr_left fun c hc => ofUInt8_toUInt8 (h c hc)).trans (List.map_id' _)
  rw [hencode, latinText, hback, String.ofList_toList]

/-- The text read off ASCII bytes has these bytes. -/
theorem encode_latinText {bytes : List UInt8} (h : ∀ byte ∈ bytes, byte < 0x80) :
    Utf8.encode (latinText bytes) = bytes := by
  have htext : (latinText bytes).toList = bytes.map Char.ofUInt8 := String.toList_ofList
  have hchars : ∀ c ∈ (latinText bytes).toList, c.toNat < 0x80 := by
    intro c hc
    rw [htext] at hc
    obtain ⟨other, hmem, rfl⟩ := List.mem_map.mp hc
    exact UInt8.lt_iff_toNat_lt.mp (h other hmem)
  rw [(exists_latinText hchars).1, htext, List.map_map]
  exact (List.map_congr_left fun other _ => UInt8.toUInt8_toUInt32 other).trans (List.map_id' bytes)

end Ascii

section Longest

variable {byte : UInt8} {rest : List UInt8}

theorem takeWhile_append_of_head {test : UInt8 → Bool} {run : List UInt8}
    (hrun : ∀ byte ∈ run, test byte) (hrest : ∀ byte ∈ rest.head?, test byte = false) :
    (run ++ rest).takeWhile test = run := by
  have hnone : rest.takeWhile test = [] := by
    cases rest with
    | nil => rfl
    | cons byte rest => exact List.takeWhile_cons_of_neg (by simp [hrest byte rfl])
  rw [List.takeWhile_append_of_pos hrun, hnone, List.append_nil]

/-- A word is read up to where it ends. -/
theorem longestToken_word {more : List UInt8} (hword : ∀ other ∈ byte :: more, isWordByte other)
    (hrest : ∀ other ∈ rest.head?, isWordByte other = false) :
    longestToken byte (more ++ rest) = (.ofWord (latinText (byte :: more)), byte :: more) := by
  obtain ⟨hfirst, hmore⟩ := List.forall_mem_cons.mp hword
  rw [longestToken, if_pos hfirst, takeWhile_append_of_head hmore hrest]

/-- An integer is read up to where it ends. -/
theorem longestToken_digits {more : List UInt8}
    (hdigits : ∀ other ∈ byte :: more, isDigitByte other)
    (hrest : ∀ other ∈ rest.head?, isDigitByte other = false) :
    longestToken byte (more ++ rest) = (.integer, byte :: more) := by
  obtain ⟨hfirst, hmore⟩ := List.forall_mem_cons.mp hdigits
  have hword : ¬ isWordByte byte := by
    simp only [isDigitByte, isWordByte, Bool.or_eq_true, Bool.and_eq_true, decide_eq_true_eq,
      UInt8.le_iff_toNat_le, ← UInt8.toNat_inj] at hfirst ⊢
    simp at hfirst ⊢
    omega
  rw [longestToken, if_neg hword, if_pos hfirst, takeWhile_append_of_head hmore hrest]

/-- A byte that spells a kind is read as this kind. -/
theorem longestToken_byte {kind : Kind} (hkind : kind.byte? = some byte)
    (hrest : ∀ other ∈ rest.head?, kind.absorbs other = false) :
    longestToken byte rest = (kind, [byte]) := by
  have hhead (habsorbs : kind.absorbs 0x3d = true) : rest.head? ≠ some 0x3d := by
    intro hhead
    rw [hrest _ hhead] at habsorbs
    contradiction
  cases kind <;> first
    | contradiction
    | (obtain rfl := Option.some.inj hkind
       first
         | rfl
         | (rw [longestToken, if_neg (by decide), if_neg (by decide)]
            simp [hhead rfl, Kind.ofByte]))

/-- No token of the language starts with a separator. -/
theorem isSeparator_of_longestToken (h : (longestToken byte rest).1 ≠ .illegal) :
    isSeparator byte = false := by
  by_contra hseparator
  simp only [isSeparator, Bool.not_eq_false, Bool.or_eq_true, decide_eq_true_eq] at hseparator
  rcases hseparator with ((rfl | rfl) | rfl) | rfl <;> exact h rfl

end Longest

theorem lt_of_isWordChar {c : Char} (h : isWordChar c) : c.toNat < 0x80 := by
  simp only [isWordChar_eq, Bool.or_eq_true, Bool.and_eq_true, decide_eq_true_eq,
    UInt32.le_iff_toNat_le] at h
  rcases h with h | rfl
  · simp at h
    omega
  · decide

theorem lt_of_isDigit {c : Char} (h : c.isDigit) : c.toNat < 0x80 := by
  simp only [Char.isDigit, Bool.and_eq_true, decide_eq_true_eq, ge_iff_le,
    UInt32.le_iff_toNat_le] at h
  simp at h
  omega

/-- The first byte of a character is of a class in ASCII just if the character is. -/
theorem head_utf8EncodeChar {c : Char} {byte : UInt8}
    (h : (String.utf8EncodeChar c).head? = some byte) {chars : Char → Bool} {bytes : UInt8 → Bool}
    (heq : ∀ byte, bytes byte = chars (Char.ofUInt8 byte))
    (hbytes : ∀ {byte : UInt8}, bytes byte → byte < 0x80)
    (hchars : ∀ {c : Char}, chars c → c.toNat < 0x80) : bytes byte = chars c := by
  by_cases hascii : c.toNat < 0x80
  · rw [utf8EncodeChar_of_ascii hascii] at h
    obtain rfl := Option.some.inj h
    rw [heq, ofUInt8_toUInt8 hascii]
  · have hbyte : ¬ byte < 0x80 := by
      intro hlt
      have hone := Utf8.utf8EncodeChar_eq (List.mem_of_head? h) hlt
      have hsize := (String.length_utf8EncodeChar c).symm
      rw [hone, List.length_singleton] at hsize
      exact hascii (utf8Size_eq_one_iff.mp hsize)
    rw [Bool.eq_false_iff.mpr (mt hbytes hbyte), Bool.eq_false_iff.mpr (mt hchars hascii)]

/-- The first byte of a text is that of its first character. -/
theorem exists_head_of_encode {text : String} {byte : UInt8}
    (h : (Utf8.encode text).head? = some byte) :
    ∃ c rest, text.toList = c :: rest ∧ (String.utf8EncodeChar c).head? = some byte := by
  rw [← String.ofList_toList (s := text), Utf8.encode_ofList] at h
  cases hchars : text.toList with
  | nil => simp [hchars] at h
  | cons c rest =>
    rw [hchars, List.flatMap_cons, List.head?_append_of_ne_nil _ String.utf8EncodeChar_ne_nil] at h
    exact ⟨c, rest, rfl, h⟩

/-- The bytes of a text are of the class that its characters are of, if these are ASCII. -/
theorem exists_bytes_of_chars {text : String} {chars : Char → Bool} {bytes : UInt8 → Bool}
    (hne : text ≠ "") (hchars : ∀ c ∈ text.toList, chars c)
    (heq : ∀ byte, bytes byte = chars (Char.ofUInt8 byte))
    (hlt : ∀ {c : Char}, chars c → c.toNat < 0x80) :
    ∃ byte more, Utf8.encode text = byte :: more ∧ (∀ other ∈ byte :: more, bytes other) ∧
      latinText (byte :: more) = text := by
  obtain ⟨hencode, htext⟩ := exists_latinText fun c hc => hlt (hchars c hc)
  cases hbytes : Utf8.encode text with
  | nil =>
    rw [hbytes] at htext
    exact absurd htext.symm hne
  | cons byte more =>
    refine ⟨byte, more, rfl, fun other hmem => ?_, hbytes ▸ htext⟩
    rw [← hbytes, hencode] at hmem
    obtain ⟨c, hc, rfl⟩ := List.mem_map.mp hmem
    rw [heq, ofUInt8_toUInt8 (hlt (hchars c hc))]
    exact hchars c hc

/-- The characters read off a run of bytes are of the class that the bytes are of. -/
theorem chars_latinText {byte : UInt8} (rest : List UInt8) {chars : Char → Bool}
    {bytes : UInt8 → Bool} (hfirst : bytes byte)
    (heq : ∀ byte, bytes byte = chars (Char.ofUInt8 byte)) :
    latinText (byte :: rest.takeWhile bytes) ≠ "" ∧
      ∀ c ∈ (latinText (byte :: rest.takeWhile bytes)).toList, chars c := by
  refine ⟨fun hempty => ?_, fun c hc => ?_⟩
  · simpa [latinText] using congrArg String.toList hempty
  · rw [latinText, String.toList_ofList] at hc
    obtain ⟨other, hother, rfl⟩ := List.mem_map.mp hc
    rw [← heq]
    rcases List.mem_cons.mp hother with rfl | hmem
    · exact hfirst
    · exact List.mem_takeWhile_imp hmem

/-- A text that spells a kind is read as this kind, unless what comes after it goes on with it. -/
theorem Kind.Spells.exists_longestToken {kind : Kind} {text : String} (h : kind.Spells text)
    {rest : List UInt8} (hrest : ∀ byte ∈ rest.head?, kind.absorbs byte = false) :
    ∃ byte more, Utf8.encode text = byte :: more ∧
      longestToken byte (more ++ rest) = (kind, byte :: more) ∧
      latinText (byte :: more) = text := by
  cases kind with
  | illegal | eof => simp [Spells, spelling?] at h
  | identifier =>
    obtain ⟨hne, hletters, hname⟩ := h
    obtain ⟨byte, more, hencode, hword, htext⟩ :=
      exists_bytes_of_chars hne hletters isWordByte_eq lt_of_isWordChar
    refine ⟨byte, more, hencode, ?_, htext⟩
    rw [longestToken_word hword hrest, htext, hname]
  | integer =>
    obtain ⟨hne, hdigits⟩ := h
    obtain ⟨byte, more, hencode, hbytes, htext⟩ :=
      exists_bytes_of_chars hne hdigits isDigitByte_eq lt_of_isDigit
    exact ⟨byte, more, hencode, longestToken_digits hbytes hrest, htext⟩
  | kwFn | kwLet | kwTrue | kwFalse | kwIf | kwElse | kwReturn =>
    obtain rfl := Option.some.inj h
    exact ⟨_, _, rfl, longestToken_word (List.all_eq_true.mp rfl) hrest, rfl⟩
  | equals | notEquals =>
    obtain rfl := Option.some.inj h
    exact ⟨_, _, rfl, rfl, rfl⟩
  | _ =>
    obtain rfl := Option.some.inj h
    exact ⟨_, [], rfl, longestToken_byte rfl hrest, rfl⟩

/-- A word spells its kind. -/
theorem Kind.spells_ofWord {word : String} (hne : word ≠ "")
    (hletters : ∀ c ∈ word.toList, isWordChar c) : (ofWord word).Spells word := by
  unfold ofWord
  repeat' split
  case isFalse => exact ⟨hne, hletters, by simp_all [ofWord]⟩
  all_goals
    subst word
    rfl

/-- Every token of the language that is read is written as its kind is. -/
theorem spells_longestToken {byte : UInt8} {rest : List UInt8}
    (h : (longestToken byte rest).1 ≠ .illegal) :
    (longestToken byte rest).1.Spells (latinText (longestToken byte rest).2) := by
  unfold longestToken at h ⊢
  split
  · obtain ⟨hne, hletters⟩ := chars_latinText rest ‹_› isWordByte_eq
    exact Kind.spells_ofWord hne hletters
  · rw [if_neg ‹_›] at h
    split
    · exact chars_latinText rest ‹_› isDigitByte_eq
    · rw [if_neg ‹_›] at h
      split
      · rfl
      · rw [if_neg ‹_›] at h
        split
        · rfl
        · rw [if_neg ‹_›] at h
          have hbyte := Kind.byte?_ofByte h
          generalize Kind.ofByte byte = kind at hbyte
          cases kind <;> first
            | contradiction
            | (obtain rfl := Option.some.inj hbyte; rfl)

/-- The tokens of the language in a source are written as their kinds are. -/
theorem Lexer.spelled_of_mem_content {lexer : Lexer} {token : Token} (h : token ∈ lexer.content)
    (hlegal : token.kind ≠ .illegal) : token.Spelled := by
  fun_induction content lexer with
  | case1 => contradiction
  | case2 lexer first after hnext _ ih =>
    rcases List.mem_cons.mp h with rfl | hrest
    · obtain ⟨byte, rest, -, rfl, -⟩ := next?_eq_some_iff.mp hnext
      exact spells_longestToken hlegal
    · exact ih hrest

/-- No token that a lexer draws stands for the end of the input. -/
theorem Lexer.kind_ne_eof_of_mem_content {lexer : Lexer} {token : Token}
    (h : token ∈ lexer.content) : token.kind ≠ .eof := by
  by_cases hillegal : token.kind = .illegal
  · simp [hillegal]
  · exact (spelled_of_mem_content h hillegal).ne_eof

/-- From these bytes a lexer draws tokens of the same kinds and texts as the given ones. -/
def ReadsAs (bytes : List UInt8) (tokens : List Token) : Prop :=
  ∀ lexer : Lexer, lexer.rest = bytes → SameTokens lexer.content tokens

namespace ReadsAs

variable {bytes : List UInt8} {tokens : List Token}

theorem nil : ReadsAs [] [] := by
  intro lexer hrest
  rw [Lexer.content_of_next?_eq_none (Lexer.next?_of_rest_eq_nil hrest)]
  rfl

/-- A separator before the bytes changes nothing. -/
theorem separator (byte : UInt8) (hseparator : isSeparator byte) (h : ReadsAs bytes tokens) :
    ReadsAs (byte :: bytes) tokens := by
  intro lexer hrest
  rw [Lexer.content_of_separators (List.forall_mem_singleton.mpr hseparator) hrest]
  exact h _ (by simp [Lexer.skip, hrest])

theorem space (h : ReadsAs bytes tokens) : ReadsAs (Utf8.encode " " ++ bytes) tokens :=
  separator 0x20 rfl h

/-- A token before the bytes is read again where the longest token at its first byte is its text. -/
theorem cons {token : Token} {byte : UInt8} {more : List UInt8}
    (hencode : Utf8.encode token.literal = byte :: more) (hseparator : isSeparator byte = false)
    (hlongest : longestToken byte (more ++ bytes) = (token.kind, byte :: more))
    (htext : latinText (byte :: more) = token.literal) (h : ReadsAs bytes tokens) :
    ReadsAs (Utf8.encode token.literal ++ bytes) (token :: tokens) := by
  intro lexer hrest
  rw [hencode, List.cons_append] at hrest
  have hhere : lexer.skipSeparators = lexer := by
    rw [Lexer.skipSeparators, hrest, List.takeWhile_cons_of_neg (by simp [hseparator])]
    rfl
  have hnext : lexer.next? = some (_, lexer.skip (longestToken byte (more ++ bytes)).2.length) :=
    Lexer.next?_eq_some_iff.mpr ⟨byte, more ++ bytes, by rw [hhere, hrest], rfl, by rw [hhere]⟩
  rw [Lexer.content_of_next? hnext, hlongest, htext]
  have hafter := h (lexer.skip (byte :: more).length) (by simp [Lexer.skip, hrest])
  simp only [SameTokens, List.map_cons] at hafter ⊢
  rw [hafter]
  rfl

/-- A token before the bytes is read as it is spelled, unless it absorbs what comes after it. -/
theorem token {token : Token} (hspelled : token.Spelled)
    (hbytes : ∀ byte ∈ bytes.head?, token.kind.absorbs byte = false) (h : ReadsAs bytes tokens) :
    ReadsAs (Utf8.encode token.literal ++ bytes) (token :: tokens) := by
  obtain ⟨byte, more, hencode, hlongest, htext⟩ := hspelled.exists_longestToken hbytes
  have hlegal : (longestToken byte (more ++ bytes)).1 ≠ .illegal := by
    rw [hlongest]
    exact hspelled.ne_illegal
  exact cons hencode (isSeparator_of_longestToken hlegal) hlongest htext h

end ReadsAs

end LetScript
