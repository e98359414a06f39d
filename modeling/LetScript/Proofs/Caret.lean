import LetScript.Proofs.Excerpt
import LetScript.Proofs.Tiling

/-!
# Where the caret stands

The fourth line that shows a diagnostic is a line of its source, and the caret in the fifth points
at the character that the diagnostic stands at. The caret is placed by counting bytes, but the line
is read by its characters: for every byte that one of those before has beyond its first, the caret
stands one column too far to the right.

So it stands under the character just where all those before it on its line are ASCII. A blank that
only blanks come after is not shown at all, and then the caret stands under nothing.
-/

namespace LetScript

/-- What stands before a character in the line that shows it: the number of its line, a bar, and the
line up to the character, without its indentation. -/
def shownBefore (front : List Char) : List Char :=
  (toString (1 + front.count '\n') ++ " | ").toList ++
    (lineBefore front).dropWhile Diagnostic.isIndent

/-- The line shows, in this column, the character that comes after `front` in the source. -/
def ShowsAt (shown front : List Char) (c : Char) (column : Nat) : Prop :=
  shownBefore front ++ [c] <+: shown ∧ column = (shownBefore front).length

/-- The fourth line of the text shows the character that comes after `front` in the source, and the
fifth has a caret `gap` columns further to the right. -/
def CaretAfter (text : String) (front : List Char) (c : Char) (gap : Nat) : Prop :=
  ∃ shown pointer column, (lines text)[3]? = some shown ∧ (lines text)[4]? = some pointer ∧
    ShowsAt shown front c column ∧ pointer[column + gap]? = some '^'

section Bytes

variable {chars : List Char}

theorem length_le_byteCount (chars : List Char) : chars.length ≤ byteCount chars := by
  induction chars with
  | nil => exact Nat.le_refl _
  | cons c rest ih =>
    rw [List.length_cons, byteCount]
    have := c.utf8Size_pos
    omega

/-- As many bytes as characters: each of these is a single one. -/
theorem byteCount_eq_length_iff :
    byteCount chars = chars.length ↔ ∀ c ∈ chars, c.toNat < 0x80 := by
  induction chars with
  | nil => simp [byteCount]
  | cons c rest ih =>
    rw [List.forall_mem_cons, ← ih, ← utf8Size_eq_one_iff, byteCount, List.length_cons]
    have := c.utf8Size_pos
    have := length_le_byteCount rest
    omega

/-- Indentation is ASCII, so as many bytes as characters are taken away with it. -/
theorem count_isIndent (chars : List Char) :
    byteCount chars = (chars.takeWhile Diagnostic.isIndent).length +
        byteCount (chars.dropWhile Diagnostic.isIndent) ∧
      chars.length = (chars.takeWhile Diagnostic.isIndent).length +
        (chars.dropWhile Diagnostic.isIndent).length := by
  have hascii : ∀ c ∈ chars.takeWhile Diagnostic.isIndent, c.toNat < 0x80 := by
    intro c hmem
    have hindent := List.mem_takeWhile_imp hmem
    simp only [Diagnostic.isIndent, Bool.or_eq_true, decide_eq_true_eq] at hindent
    rcases hindent with rfl | rfl <;> decide
  rw [← byteCount_eq_length_iff.mpr hascii, ← byteCount_append, List.takeWhile_append_dropWhile,
    byteCount_eq_length_iff.mpr hascii, ← List.length_append, List.takeWhile_append_dropWhile]
  exact ⟨rfl, rfl⟩

end Bytes

section Trim

variable {before more : List Char} {c : Char}

/-- A character is left where blanks are taken away from the end just if it is none, or another one
that is none comes after it. -/
theorem prefix_trimBlankEnd_iff :
    before ++ [c] <+: trimBlankEnd (before ++ c :: more) ↔
      ∃ other ∈ c :: more, isBlank other = false := by
  by_cases hblank : ∀ other ∈ c :: more, isBlank other
  · rw [trimBlankEnd_append_of_blank hblank]
    constructor
    · intro hkept
      have hlength := hkept.length_le.trans (prefix_trimBlankEnd before).length_le
      rw [List.length_append, List.length_singleton] at hlength
      omega
    · rintro ⟨other, hmem, hother⟩
      exact absurd (hblank other hmem) (Bool.eq_false_iff.mp hother)
  · have hsome : ∃ other ∈ c :: more, isBlank other = false := by
      simpa only [not_forall, exists_prop, Bool.not_eq_true] using hblank
    have hne : trimBlankEnd (c :: more) ≠ [] := mt List.rdropWhile_eq_nil_iff.mp hblank
    refine iff_of_true ?_ hsome
    rw [trimBlankEnd_append_of_ne_nil hne, List.prefix_append_right_inj]
    obtain ⟨more', hmore⟩ := prefix_trimBlankEnd (c :: more)
    cases htrim : trimBlankEnd (c :: more) with
    | nil => exact absurd htrim hne
    | cons first rest =>
      rw [htrim] at hmore
      exact (List.cons.inj hmore).1 ▸ List.prefix_append [first] rest

/-- Blanks at the end add nothing that is none. -/
theorem exists_notBlank_append {chars blanks : List Char} (h : ∀ c ∈ blanks, isBlank c) :
    (∃ c ∈ chars ++ blanks, isBlank c = false) ↔ ∃ c ∈ chars, isBlank c = false := by
  constructor
  · rintro ⟨c, hmem, hc⟩
    have hnot : c ∉ blanks := fun hblank => Bool.eq_false_iff.mp hc (h c hblank)
    exact ⟨c, (List.mem_append.mp hmem).resolve_right hnot, hc⟩
  · rintro ⟨c, hmem, hc⟩
    exact ⟨c, List.mem_append_left blanks hmem, hc⟩

end Trim

theorem getElem?_concat_eq_some_iff {chars : List Char} {c : Char} (h : c ∉ chars) {index : Nat} :
    (chars ++ [c])[index]? = some c ↔ index = chars.length := by
  constructor
  · intro hget
    obtain ⟨hlt, -⟩ := List.getElem?_eq_some_iff.mp hget
    rw [List.length_append, List.length_singleton] at hlt
    by_contra hne
    rw [List.getElem?_append_left (by omega)] at hget
    exact h (List.mem_of_getElem? hget)
  · rintro rfl
    exact List.getElem?_concat_length

namespace Diagnostic

variable {source : String} {diagnostic : Diagnostic} {front rest : List Char} {c : Char}

/-- What is taken away of a line before it is shown, and what is left before a character. -/
theorem indent_of_line (front : List Char) (hindent : isIndent c = false) (more : List Char) :
    let line := lineBefore front ++ c :: more
    line.dropWhile isIndent = (lineBefore front).dropWhile isIndent ++ c :: more ∧
      byteCount (lineBefore front) - (line.takeWhile isIndent).length =
        byteCount ((lineBefore front).dropWhile isIndent) := by
  intro line
  have hdrop : line.dropWhile isIndent = (lineBefore front).dropWhile isIndent ++ c :: more :=
    dropWhile_append_of_head (by simpa using hindent)
  have htake : line.takeWhile isIndent = (lineBefore front).takeWhile isIndent := by
    refine (List.append_left_inj (line.dropWhile isIndent)).mp ?_
    rw [List.takeWhile_append_dropWhile, hdrop, ← List.append_assoc,
      List.takeWhile_append_dropWhile]
  refine ⟨hdrop, ?_⟩
  rw [htake, (count_isIndent _).1, Nat.add_sub_cancel_left]

/-- The caret comes after as many dashes as there are bytes before the character, up to those that
indent its line. -/
theorem dashes_eq (h : source.toList = front ++ c :: rest) (hfeed : c ≠ '\n')
    (hindent : isIndent c = false) (hoffset : diagnostic.position.offset = byteCount front) :
    diagnostic.dashes source = byteCount ((lineBefore front).dropWhile isIndent) := by
  obtain ⟨feed, -, hlocate⟩ := locate_of_chars h hfeed
  rw [dashes, hoffset, hlocate]
  simp only [String.toList_ofList]
  exact (indent_of_line front hindent (lineAfter rest ++ feed)).2

/-- A diagnostic at a character of a line that is not too long can be drawn. -/
theorem draw?_of_byteCount_le (h : source.toList = front ++ c :: rest) (hfeed : c ≠ '\n')
    (hindent : isIndent c = false) (hoffset : diagnostic.position.offset = byteCount front)
    (hline : byteCount (lineBefore front ++ [c]) ≤ maxWidth) :
    diagnostic.draw? source = some (diagnostic.render source) := by
  obtain ⟨hbytes, -⟩ := count_isIndent (lineBefore front)
  have hsize := Char.utf8Size_pos c
  simp only [byteCount_append, byteCount] at hline
  rw [draw?, dashes_eq h hfeed hindent hoffset, if_pos (by omega)]

/-- The line that shows a character of the source, unless it is a blank and only blanks come after
it, and the line that points at it. -/
theorem exists_shown (h : source.toList = front ++ c :: rest) (hfeed : c ≠ '\n')
    (hindent : isIndent c = false) (hoffset : diagnostic.position.offset = byteCount front) :
    ∃ shown pointer, ((diagnostic.excerpt source).map String.toList)[3]? = some shown ∧
      ((diagnostic.excerpt source).map String.toList)[4]? = some pointer ∧
      (shownBefore front ++ [c] <+: shown ↔
        ∃ other ∈ c :: lineAfter rest, isBlank other = false) ∧
      pointer = List.replicate ((toString (1 + front.count '\n')).length + 1) ' ' ++ ['|', ' '] ++
        List.replicate (byteCount ((lineBefore front).dropWhile isIndent)) '-' ++ ['^'] := by
  obtain ⟨feed, hblank, hlocate⟩ := locate_of_chars h hfeed
  obtain ⟨hdrop, -⟩ := indent_of_line front hindent (lineAfter rest ++ feed)
  refine ⟨_, _, rfl, rfl, ?_, ?_⟩
  · rw [hoffset, hlocate]
    simp only [String.toList_append, String.toList_ofList, hdrop, shownBefore, List.append_assoc,
      List.prefix_append_right_inj]
    rw [prefix_trimBlankEnd_iff, ← List.cons_append]
    exact exists_notBlank_append (isBlank_of_feed hblank)
  · rw [dashes_eq h hfeed hindent hoffset, hoffset, hlocate]
    simp only [bar, String.toList_append, toList_pushn]
    simp

/-- A character whose first byte is no separator does not indent, nor does it end a line. -/
theorem not_separator_of_head {byte : UInt8} (h : (String.utf8EncodeChar c).head? = some byte)
    (hseparator : ¬ isSeparator byte) : c ≠ '\n' ∧ isIndent c = false := by
  have hne (other : Char) (hother : other ∈ ['\n', ' ', '\t']) : c ≠ other := by
    rintro rfl
    simp only [List.mem_cons, List.not_mem_nil, or_false] at hother
    rcases hother with rfl | rfl | rfl <;>
    · obtain rfl := Option.some.inj h
      exact hseparator (by decide)
  refine ⟨hne _ (by simp), ?_⟩
  simp [isIndent, hne]

/-- What stands between two characters of a source has a character after it, if a token stands
there. -/
theorem exists_character (hsize : source.utf8ByteSize ≤ Position.maxOffset)
    (hmem : diagnostic ∈ (parse source none).2) {token : Token}
    (htoken : token ∈ tokenize source none) (hkind : token.kind ≠ .eof)
    (hposition : diagnostic.position = token.position) :
    ∃ front c rest, source.toList = front ++ c :: rest ∧
      byteCount front = diagnostic.position.offset ∧ c ≠ '\n' ∧ isIndent c = false := by
  obtain ⟨offset, hoffset, hvalid⟩ := exists_offset hmem
  obtain ⟨front, rest, hsource, hfront⟩ := String.Pos.Raw.isValid_iff_exists_append.mp hvalid
  obtain ⟨byte, hbyte, hseparator⟩ := (Lexer.tiles_ofString hsize none).exists_start
    (Lexer.mem_content_of_mem_tokenize htoken hkind)
  have hlength : offset = (Utf8.encode front).length := by
    rw [Utf8.length_encode]
    exact congrArg String.Pos.Raw.byteIdx hfront
  have hexact : diagnostic.position.offset = (Utf8.encode front).length := by
    rw [hoffset, ← hlength]
    exact Position.offset_atOffset (hvalid.le_rawEndPos.trans hsize) _
  have hhead : (Utf8.encode rest).head? = some byte := by
    have hstart : token.span.start.offset = (Utf8.encode front).length :=
      (congrArg Position.offset hposition).symm.trans hexact
    rw [hstart, hsource, Utf8.encode_append,
      List.getElem?_append_right (Nat.le_refl _), Nat.sub_self, ← List.head?_eq_getElem?] at hbyte
    exact hbyte
  obtain ⟨c, chars, hchars, hfirst⟩ := exists_head_of_encode hhead
  refine ⟨front.toList, c, chars, ?_, ?_, not_separator_of_head hfirst hseparator⟩
  · rw [hsource, String.toList_append, hchars]
  · rw [hexact, ← length_flatMap_utf8EncodeChar, ← Utf8.encode_ofList, String.ofList_toList]

/-- The caret stands to the right of the character by the number of bytes that the characters before
it have beyond their first. -/
theorem caretAfter_iff (h : source.toList = front ++ c :: rest) (hfeed : c ≠ '\n')
    (hindent : isIndent c = false) (hoffset : diagnostic.position.offset = byteCount front)
    (hmem : diagnostic ∈ (parse source none).2) (gap : Nat) :
    CaretAfter (diagnostic.render source) front c gap ↔
      (∃ other ∈ c :: lineAfter rest, isBlank other = false) ∧
        byteCount (lineBefore front) = (lineBefore front).length + gap := by
  obtain ⟨shown, pointer, hshown, hpointer, hshows, hcaret⟩ := exists_shown h hfeed hindent hoffset
  have hlines (index : Nat) (hlt : index < 5) : (lines (diagnostic.render source))[index]? =
      ((diagnostic.excerpt source).map String.toList)[index]? := by
    rw [lines_render_of_mem hmem, List.getElem?_append_left]
    exact hlt
  rw [← hlines 3 (by decide)] at hshown
  rw [← hlines 4 (by decide)] at hpointer
  have hwhere (column : Nat) : pointer[column]? = some '^' ↔
      column + (lineBefore front).length =
        (shownBefore front).length + byteCount (lineBefore front) := by
    have hlabel : (shownBefore front).length = (toString (1 + front.count '\n')).length + 3 +
        ((lineBefore front).dropWhile isIndent).length := by
      rw [shownBefore, List.length_append, String.length_toList, String.length_append]
      rfl
    obtain ⟨hbytes, hlength⟩ := count_isIndent (lineBefore front)
    rw [hcaret, getElem?_concat_eq_some_iff (by simp), hlabel, hbytes, hlength]
    simp only [List.length_append, List.length_replicate, List.length_cons, List.length_nil]
    omega
  constructor
  · rintro ⟨shown', pointer', column, hshown', hpointer', ⟨hshows', hcolumn⟩, hgap⟩
    obtain rfl := Option.some.inj (hshown.symm.trans hshown')
    obtain rfl := Option.some.inj (hpointer.symm.trans hpointer')
    rw [hwhere] at hgap
    exact ⟨hshows.mp hshows', by omega⟩
  · rintro ⟨hsome, hgap⟩
    refine ⟨shown, pointer, _, hshown, hpointer, ⟨hshows.mpr hsome, rfl⟩, ?_⟩
    rw [hwhere]
    omega

end Diagnostic

/-- No two characters of a source start at the same byte. -/
theorem eq_of_byteCount_eq {front rest front' rest' : List Char} {c c' : Char}
    (h : front ++ c :: rest = front' ++ c' :: rest') (hcount : byteCount front = byteCount front') :
    front = front' ∧ c = c' ∧ rest = rest' := by
  have hempty {chars : List Char} (hzero : byteCount chars = 0) : chars = [] :=
    List.length_eq_zero_iff.mp (Nat.le_zero.mp (hzero ▸ length_le_byteCount chars))
  have hfront : front = front' := by
    rcases List.append_eq_append_iff.mp h with ⟨more, rfl, -⟩ | ⟨more, rfl, -⟩
    · rw [byteCount_append] at hcount
      rw [hempty (by omega : byteCount more = 0), List.append_nil]
    · rw [byteCount_append] at hcount
      rw [hempty (by omega : byteCount more = 0), List.append_nil]
  subst hfront
  exact ⟨rfl, List.cons.inj (List.append_cancel_left h)⟩

/-- A diagnostic that does not stand at the end of the input stands at a character. The caret stands
under it just if all characters before it on its line are ASCII, and the blanks that the line ends
with do not take it away. Where there are others, the caret stands further to the right, by the
number of bytes that they have beyond their first. It can be drawn if its line goes on for no more
bytes than a text can be filled up to. -/
theorem caretAfter_zero_iff {source : String} (hsize : source.utf8ByteSize ≤ Position.maxOffset)
    {diagnostic : Diagnostic} (hmem : diagnostic ∈ (parse source none).2) {token : Token}
    (htoken : token ∈ tokenize source none) (hkind : token.kind ≠ .eof)
    (hposition : diagnostic.position = token.position) :
    (∃ front c rest, source.toList = front ++ c :: rest ∧
      byteCount front = diagnostic.position.offset) ∧
    ∀ front c rest, source.toList = front ++ c :: rest →
      byteCount front = diagnostic.position.offset →
      (CaretAfter (diagnostic.render source) front c 0 ↔
        (∃ other ∈ c :: lineAfter rest, isBlank other = false) ∧
          ∀ other ∈ lineBefore front, other.toNat < 0x80) ∧
      (∀ gap, CaretAfter (diagnostic.render source) front c gap ↔
        (∃ other ∈ c :: lineAfter rest, isBlank other = false) ∧
          byteCount (lineBefore front) = (lineBefore front).length + gap) ∧
      (byteCount (lineBefore front ++ [c]) ≤ 65535 →
        diagnostic.draw? source = some (diagnostic.render source)) := by
  obtain ⟨front, c, rest, hsource, hoffset, hfeed, hindent⟩ :=
    Diagnostic.exists_character hsize hmem htoken hkind hposition
  refine ⟨⟨front, c, rest, hsource, hoffset⟩, fun front' c' rest' hsource' hoffset' => ?_⟩
  obtain ⟨rfl, rfl, rfl⟩ :=
    eq_of_byteCount_eq (hsource.symm.trans hsource') (hoffset.trans hoffset'.symm)
  have hgap := Diagnostic.caretAfter_iff hsource hfeed hindent hoffset.symm hmem
  refine ⟨?_, hgap, Diagnostic.draw?_of_byteCount_le hsource hfeed hindent hoffset.symm⟩
  rw [hgap, Nat.add_zero, byteCount_eq_length_iff]

/-- Only the line of the character counts. -/
theorem caretAfter_zero_of_accent_above :
    let source := "é;\n\tlet = 5;"
    let diagnostic : Diagnostic :=
      ⟨.unexpectedToken .identifier .assignment, ⟨9, Lexer.defaultFile⟩⟩
    source.utf8ByteSize ≤ Position.maxOffset ∧ diagnostic ∈ (parse source none).2 ∧
      (∃ token ∈ tokenize source none, token.kind ≠ .eof ∧ diagnostic.position = token.position) ∧
      diagnostic.draw? source = some (diagnostic.render source) ∧
      CaretAfter (diagnostic.render source) "é;\n\tlet ".toList '=' 0 := by
  intro source diagnostic
  have hsize : source.utf8ByteSize ≤ Position.maxOffset := by decide +kernel
  have hmem : diagnostic ∈ (parse source none).2 := by decide +kernel
  obtain ⟨token, htoken, hkind, hposition⟩ :
      ∃ token ∈ tokenize source none, token.kind ≠ .eof ∧ diagnostic.position = token.position := by
    decide +kernel
  obtain ⟨-, hcaret⟩ := caretAfter_zero_iff hsize hmem htoken hkind hposition
  obtain ⟨hunder, -, hdrawn⟩ := hcaret "é;\n\tlet ".toList '=' " 5;".toList (by decide +kernel)
    (by decide +kernel)
  refine ⟨hsize, hmem, ⟨token, htoken, hkind, hposition⟩, hdrawn (by decide +kernel),
    hunder.mpr ⟨?_, ?_⟩⟩
  · exact ⟨'=', List.mem_cons_self, by decide⟩
  · exact byteCount_eq_length_iff.mp (by decide +kernel)

/-- One character of two bytes moves the caret by one column. -/
theorem not_caretAfter_zero_of_accent :
    let source := "é; let = 5;"
    let diagnostic : Diagnostic :=
      ⟨.unexpectedToken .identifier .assignment, ⟨8, Lexer.defaultFile⟩⟩
    source.utf8ByteSize ≤ 65535 ∧ diagnostic ∈ (parse source none).2 ∧
      (∃ token ∈ tokenize source none, token.kind ≠ .eof ∧ diagnostic.position = token.position) ∧
      (lines (diagnostic.render source))[3]? = some "1 | é; let = 5;".toList ∧
      (lines (diagnostic.render source))[4]? = some "  | --------^".toList ∧
      source.toList = "é; let ".toList ++ '=' :: " 5;".toList ∧
      byteCount "é; let ".toList = diagnostic.position.offset ∧
      ¬ CaretAfter (diagnostic.render source) "é; let ".toList '=' 0 := by
  intro source diagnostic
  have hmem : diagnostic ∈ (parse source none).2 := by decide +kernel
  have hsource : source.toList = "é; let ".toList ++ '=' :: " 5;".toList := by decide +kernel
  have hoffset : byteCount "é; let ".toList = diagnostic.position.offset := by decide +kernel
  refine ⟨by decide +kernel, hmem, by decide +kernel, by decide +kernel, by decide +kernel, hsource,
    hoffset, fun hcaret => ?_⟩
  obtain ⟨-, hcount⟩ := (Diagnostic.caretAfter_iff hsource (by decide) (by decide) hoffset.symm
    hmem 0).mp hcaret
  revert hcount
  decide +kernel

end LetScript
