import LetScript.Proofs.Spelling
import LetScript.Source.Line
import Mathlib.Data.List.DropRight

/-!
# Lines found by counting

Looking up a byte walks over the lines of a source. What it finds is said without the walk: the
number of the line is one more than the number of line feeds before the byte, the line starts just
after the last of them, and it goes on through the next one. An offset past the end of the source
stands for its end, and a byte may stand inside a character.

Where a byte starts a character, its line is found among the characters as well: those since the
last line feed come before it on the line, and those up to the next one after it.
-/

namespace LetScript

/-- The byte that ends a line. -/
def lineFeed : UInt8 := 0x0a

/-- Where the line starts that the bytes end in: just after the last line feed. -/
def lineStart (bytes : List UInt8) : Nat := bytes.length - bytes.reverse.idxOf lineFeed

/-- The bytes through the first line feed, or all of them if there is none. -/
def throughFeed (bytes : List UInt8) : List UInt8 := bytes.take (bytes.idxOf lineFeed + 1)

section Bytes

variable {line rest : List UInt8}

theorem lineStart_of_notMem (h : lineFeed ∉ line) : lineStart line = 0 := by
  rw [lineStart, List.idxOf_of_notMem (mt List.mem_reverse.mp h), List.length_reverse, Nat.sub_self]

theorem lineStart_append_lineFeed (line rest : List UInt8) :
    lineStart (line ++ lineFeed :: rest) = line.length + 1 + lineStart rest := by
  rw [lineStart, lineStart, List.reverse_append, List.reverse_cons, List.append_assoc,
    List.length_append, List.length_cons]
  by_cases h : lineFeed ∈ rest.reverse
  · have hlt := List.idxOf_lt_length_of_mem h
    rw [List.length_reverse] at hlt
    rw [List.idxOf_append_of_mem h]
    omega
  · rw [List.idxOf_append_of_notMem h, List.idxOf_of_notMem h, List.length_reverse,
      List.singleton_append, List.idxOf_cons_self]
    omega

theorem throughFeed_of_notMem (h : lineFeed ∉ line) : throughFeed line = line := by
  rw [throughFeed, List.idxOf_of_notMem h, List.take_of_length_le (Nat.le_succ _)]

theorem throughFeed_append_lineFeed (h : lineFeed ∉ line) :
    throughFeed (line ++ lineFeed :: rest) = line ++ [lineFeed] := by
  rw [throughFeed, List.idxOf_append_of_notMem h, List.idxOf_cons_self, Nat.add_zero,
    List.take_length_add_append]
  rfl

end Bytes

section Mark

variable {α : Type} [BEq α] [LawfulBEq α] {mark : α} {items : List α}

theorem forall_ne_of_notMem (h : mark ∉ items) : ∀ item ∈ items, (item != mark) = true :=
  fun _ hmem => bne_iff_ne.mpr fun heq => h (heq ▸ hmem)

theorem dropWhile_mark_eq_nil_iff : items.dropWhile (· != mark) = [] ↔ mark ∉ items := by
  refine ⟨fun h hmem => ?_, fun h => List.dropWhile_eq_nil_iff.mpr (forall_ne_of_notMem h)⟩
  exact absurd (List.dropWhile_eq_nil_iff.mp h _ hmem) (by simp)

/-- A list is cut at the first mark. -/
theorem cut_at_mark (h : mark ∉ items) (rest : List α) :
    (items ++ mark :: rest).takeWhile (· != mark) = items ∧
      (items ++ mark :: rest).dropWhile (· != mark) = mark :: rest := by
  have htake : (mark :: rest).takeWhile (· != mark) = [] :=
    List.takeWhile_cons_of_neg (by simp)
  have hdrop : (mark :: rest).dropWhile (· != mark) = mark :: rest :=
    List.dropWhile_cons_of_neg (by simp)
  rw [List.takeWhile_append_of_pos (forall_ne_of_notMem h), htake,
    List.dropWhile_append_of_pos (forall_ne_of_notMem h), hdrop]
  exact ⟨List.append_nil items, rfl⟩

/-- Where a list is cut that goes on after a mark. -/
theorem split_of_dropWhile {rest : List α} {found : α}
    (h : items.dropWhile (· != mark) = found :: rest) :
    found = mark ∧ mark ∉ items.takeWhile (· != mark) ∧
      items = items.takeWhile (· != mark) ++ found :: rest := by
  refine ⟨?_, fun hmem => ?_, ?_⟩
  · have hnot := List.head_dropWhile_not (· != mark) (l := items) (by simp [h])
    simpa [h] using hnot
  · simpa using List.mem_takeWhile_imp hmem
  · rw [← h, List.takeWhile_append_dropWhile]

end Mark

section Chars

/-- Only the line feed has the byte of a line feed. -/
theorem lineFeed_mem_utf8EncodeChar {c : Char} : lineFeed ∈ String.utf8EncodeChar c ↔ c = '\n' := by
  constructor
  · intro h
    have hone := Utf8.utf8EncodeChar_eq h (by decide)
    have hascii : c.toNat < 0x80 := by
      rw [← utf8Size_eq_one_iff, ← String.length_utf8EncodeChar, hone, List.length_singleton]
    rw [utf8EncodeChar_of_ascii hascii] at hone
    rw [← ofUInt8_toUInt8 hascii, List.head_eq_of_cons_eq hone]
    rfl
  · rintro rfl
    decide

theorem lineFeed_mem_flatMap {chars : List Char} :
    lineFeed ∈ chars.flatMap String.utf8EncodeChar ↔ '\n' ∈ chars := by
  simp [List.mem_flatMap, lineFeed_mem_utf8EncodeChar]

theorem flatMap_append_lineFeed (line rest : List Char) :
    (line ++ '\n' :: rest).flatMap String.utf8EncodeChar =
      line.flatMap String.utf8EncodeChar ++ lineFeed :: rest.flatMap String.utf8EncodeChar := by
  rw [List.flatMap_append, List.flatMap_cons]
  rfl

theorem length_flatMap_utf8EncodeChar (chars : List Char) :
    (chars.flatMap String.utf8EncodeChar).length = byteCount chars := by
  induction chars with
  | nil => rfl
  | cons c chars ih =>
    rw [List.flatMap_cons, List.length_append, String.length_utf8EncodeChar, ih, byteCount]

end Chars

/-- The location is that of byte `offset` in `bytes`, whose first line has the number `number`. -/
structure Locates (bytes : List UInt8) (number offset : Nat) (location : Location) : Prop where
  number_eq : location.number = number + (bytes.take offset).count lineFeed
  offset_eq : location.offset = min offset bytes.length - lineStart (bytes.take offset)
  text_eq : Utf8.encode location.text = throughFeed (bytes.drop (lineStart (bytes.take offset)))

namespace Locates

variable {line rest : List UInt8} {number offset : Nat} {text : String} {location : Location}

/-- In the only line the offset is at most the length. -/
theorem last (h : lineFeed ∉ Utf8.encode text) (number offset : Nat) :
    Locates (Utf8.encode text) number offset
      ⟨number, text, min offset (Utf8.encode text).length⟩ := by
  have hfront : lineFeed ∉ (Utf8.encode text).take offset := mt List.mem_of_mem_take h
  constructor
  · rw [List.count_eq_zero_of_not_mem hfront, Nat.add_zero]
  · rw [lineStart_of_notMem hfront, Nat.sub_zero]
  · rw [lineStart_of_notMem hfront, List.drop_zero, throughFeed_of_notMem h]

/-- An offset up to the first line feed is in the first line. -/
theorem first (h : lineFeed ∉ line) (htext : Utf8.encode text = line ++ [lineFeed])
    (hoffset : offset ≤ line.length) (number : Nat) (rest : List UInt8) :
    Locates (line ++ lineFeed :: rest) number offset ⟨number, text, offset⟩ := by
  have hfront : lineFeed ∉ (line ++ lineFeed :: rest).take offset := by
    rw [List.take_append_of_le_length hoffset]
    exact mt List.mem_of_mem_take h
  constructor
  · rw [List.count_eq_zero_of_not_mem hfront, Nat.add_zero]
  · rw [lineStart_of_notMem hfront, Nat.sub_zero, List.length_append]
    exact (Nat.min_eq_left (Nat.le_add_right_of_le hoffset)).symm
  · rw [lineStart_of_notMem hfront, List.drop_zero, throughFeed_append_lineFeed h, htext]

/-- A later offset is in the bytes after the first line feed. -/
theorem skip (h : lineFeed ∉ line) (hrest : Locates rest (number + 1) offset location) :
    Locates (line ++ lineFeed :: rest) number (line.length + 1 + offset) location := by
  have hfront : (line ++ lineFeed :: rest).take (line.length + 1 + offset) =
      line ++ lineFeed :: rest.take offset := by
    rw [Nat.add_assoc, List.take_length_add_append, Nat.add_comm 1, List.take_succ_cons]
  constructor
  · rw [hrest.number_eq, hfront, List.count_append, List.count_eq_zero_of_not_mem h,
      List.count_cons_self]
    omega
  · rw [hrest.offset_eq, hfront, lineStart_append_lineFeed, List.length_append, List.length_cons]
    omega
  · rw [hrest.text_eq, hfront, lineStart_append_lineFeed, Nat.add_assoc,
      List.drop_length_add_append, Nat.add_comm 1, List.drop_succ_cons]

/-- The walk over the lines finds the location. -/
theorem within (chars : List Char) (number offset : Nat) :
    Locates (chars.flatMap String.utf8EncodeChar) number offset
      (Location.within chars number offset) := by
  fun_induction Location.within chars number offset with
  | case1 chars number offset hleft =>
    have hmem := mt lineFeed_mem_flatMap.mp (dropWhile_mark_eq_nil_iff.mp hleft)
    rw [← length_flatMap_utf8EncodeChar, ← Utf8.encode_ofList]
    exact last (Utf8.encode_ofList chars ▸ hmem) number offset
  | case2 chars number offset feed rest hleft line hle _ ih =>
    obtain ⟨rfl, hmem, hchars⟩ := split_of_dropWhile hleft
    have hskip := ih.skip (mt lineFeed_mem_flatMap.mp hmem)
    rw [← flatMap_append_lineFeed, ← hchars, length_flatMap_utf8EncodeChar] at hskip
    have hlength : byteCount line = byteCount (chars.takeWhile (· != '\n')) + 1 :=
      byteCount_append _ ['\n']
    rwa [← hlength, Nat.add_sub_cancel' hle] at hskip
  | case3 chars number offset feed rest hleft line hlt =>
    obtain ⟨rfl, hmem, hchars⟩ := split_of_dropWhile hleft
    have hlength : byteCount line = byteCount (chars.takeWhile (· != '\n')) + 1 :=
      byteCount_append _ ['\n']
    rw [hchars, flatMap_append_lineFeed]
    refine first (mt lineFeed_mem_flatMap.mp hmem) ?_ ?_ number _
    · rw [Utf8.encode_ofList, flatMap_append_lineFeed]
      rfl
    · rw [length_flatMap_utf8EncodeChar]
      omega

end Locates

/-- The location of an offset in a source, by counting its bytes. -/
theorem locates_locate (source : String) (offset : Nat) :
    Locates (Utf8.encode source) 1 offset (locate source offset) := by
  rw [← String.ofList_toList (s := source), Utf8.encode_ofList, locate, String.toList_ofList]
  exact Locates.within source.toList 1 offset

/-- A source without a line feed is a single line. -/
theorem locate_of_notMem {source : String} (h : '\n' ∉ source.toList) (offset : Nat) :
    locate source offset = ⟨1, source, min offset source.utf8ByteSize⟩ := by
  have hleft : source.toList.dropWhile (· != '\n') = [] := dropWhile_mark_eq_nil_iff.mpr h
  have hsize : byteCount source.toList = source.utf8ByteSize := by
    rw [← length_flatMap_utf8EncodeChar, ← Utf8.encode_ofList, String.ofList_toList,
      Utf8.length_encode]
  rw [locate, Location.within]
  split
  next => rw [String.ofList_toList, hsize]
  next hsome => exact absurd (hleft.symm.trans hsome) (List.cons_ne_nil _ _).symm

/-- The line of an offset has the number one more than that of the line feeds before the offset,
starts just after the last of these, and goes on through the next one. The offset in the line is
counted from its start. -/
theorem locate_eq (source : String) (position : Nat) :
    let bytes := Utf8.encode source
    let front := bytes.take (min position bytes.length)
    (locate source position).number = 1 + front.count lineFeed ∧
      (locate source position).offset = min position bytes.length - lineStart front ∧
      Utf8.encode (locate source position).text = throughFeed (bytes.drop (lineStart front)) := by
  intro bytes front
  have hfront : front = bytes.take position := (List.take_eq_take_min ..).symm
  obtain ⟨hnumber, hoffset, htext⟩ := locates_locate source position
  rw [hfront]
  exact ⟨hnumber, hoffset, htext⟩

/-- The characters of the last line of `front`. -/
def lineBefore (front : List Char) : List Char := front.rtakeWhile (· != '\n')

/-- The characters of the first line of `rest`. -/
def lineAfter (rest : List Char) : List Char := rest.takeWhile (· != '\n')

section Line

variable {front rest : List Char} {c : Char}

theorem lineFeed_notMem_lineBefore (front : List Char) : '\n' ∉ lineBefore front := by
  intro hmem
  simpa using List.mem_rtakeWhile_imp hmem

/-- The line of a character starts where the lines before it end. -/
theorem exists_lineStart (front : List Char) :
    ∃ outer, front = outer ++ lineBefore front ∧
      lineStart (front.flatMap String.utf8EncodeChar) = byteCount outer := by
  have hfront : front.rdropWhile (· != '\n') ++ lineBefore front = front :=
    List.rdropWhile_append_rtakeWhile
  have hline := lineStart_of_notMem (mt lineFeed_mem_flatMap.mp (lineFeed_notMem_lineBefore front))
  refine ⟨front.rdropWhile (· != '\n'), hfront.symm, ?_⟩
  rcases List.eq_nil_or_concat' (front.rdropWhile (· != '\n')) with hnil | ⟨init, last, hlast⟩
  · rw [hnil, List.nil_append] at hfront
    rw [hnil, ← hfront, hline, byteCount]
  · have hfeed : last = '\n' := by
      simpa [hlast] using List.rdropWhile_last_not (· != '\n') front (by simp [hlast])
    subst hfeed
    rw [hlast, List.append_assoc, List.singleton_append] at hfront
    rw [hlast, ← hfront, flatMap_append_lineFeed, lineStart_append_lineFeed, hline,
      length_flatMap_utf8EncodeChar, byteCount_append]
    rfl

/-- A line goes on up to a line feed, or it is the last one. -/
theorem exists_throughFeed (chars : List Char) :
    ∃ feed, (feed = [] ∨ feed = ['\n']) ∧
      throughFeed (chars.flatMap String.utf8EncodeChar) =
        (lineAfter chars ++ feed).flatMap String.utf8EncodeChar := by
  cases hleft : chars.dropWhile (· != '\n') with
  | nil =>
    have hmem := dropWhile_mark_eq_nil_iff.mp hleft
    have hall : lineAfter chars = chars := by
      refine List.takeWhile_eq_self_iff.mpr fun other hother => ?_
      exact bne_iff_ne.mpr fun heq => hmem (heq ▸ hother)
    refine ⟨[], .inl rfl, ?_⟩
    rw [throughFeed_of_notMem (mt lineFeed_mem_flatMap.mp hmem), hall, List.append_nil]
  | cons feed rest =>
    obtain ⟨rfl, hmem, hchars⟩ := split_of_dropWhile hleft
    refine ⟨['\n'], .inr rfl, ?_⟩
    rw [hchars, flatMap_append_lineFeed,
      throughFeed_append_lineFeed (mt lineFeed_mem_flatMap.mp hmem), ← hchars]
    exact (flatMap_append_lineFeed _ []).symm

theorem count_lineFeed (chars : List Char) :
    (chars.flatMap String.utf8EncodeChar).count lineFeed = chars.count '\n' := by
  induction chars with
  | nil => rfl
  | cons c rest ih =>
    rw [List.flatMap_cons, List.count_append, ih, List.count_cons, Nat.add_comm]
    congr 1
    split
    next heq =>
      rw [beq_iff_eq.mp heq]
      rfl
    next hne =>
      exact List.count_eq_zero_of_not_mem (mt lineFeed_mem_utf8EncodeChar.mp (by simpa using hne))

/-- The bytes of a source are those of the characters before a place and those of the others. -/
theorem encode_split {source : String} (h : source.toList = front ++ rest) :
    (Utf8.encode source).take (byteCount front) = front.flatMap String.utf8EncodeChar ∧
      (Utf8.encode source).drop (byteCount front) = rest.flatMap String.utf8EncodeChar := by
  have hbytes : Utf8.encode source =
      front.flatMap String.utf8EncodeChar ++ rest.flatMap String.utf8EncodeChar := by
    rw [← String.ofList_toList (s := source), h, Utf8.encode_ofList, List.flatMap_append]
  rw [hbytes, ← length_flatMap_utf8EncodeChar]
  exact ⟨List.take_left' rfl, List.drop_left' rfl⟩

/-- What has no line feed is on the first line, before what comes after it. -/
theorem lineAfter_append {line : List Char} (h : '\n' ∉ line) (rest : List Char) :
    lineAfter (line ++ rest) = line ++ lineAfter rest :=
  List.takeWhile_append_of_pos (forall_ne_of_notMem h)

theorem lineAfter_cons (h : c ≠ '\n') (rest : List Char) :
    lineAfter (c :: rest) = c :: lineAfter rest :=
  List.takeWhile_cons_of_pos (p := (· != '\n')) (bne_iff_ne.mpr h)

/-- Where a character stands in a source, by the characters before it. -/
theorem locate_of_chars {source : String} (h : source.toList = front ++ c :: rest)
    (hc : c ≠ '\n') :
    ∃ feed, (feed = [] ∨ feed = ['\n']) ∧
      locate source (byteCount front) =
        ⟨1 + front.count '\n', .ofList (lineBefore front ++ c :: (lineAfter rest ++ feed)),
          byteCount (lineBefore front)⟩ := by
  obtain ⟨hnumber, hoffset, htext⟩ := locates_locate source (byteCount front)
  obtain ⟨outer, hfront, hstart⟩ := exists_lineStart front
  obtain ⟨feed, hfeed, hthrough⟩ := exists_throughFeed (lineBefore front ++ c :: rest)
  obtain ⟨htake, -⟩ := encode_split h
  have hlines : source.toList = outer ++ (lineBefore front ++ c :: rest) := by
    rw [h, ← List.append_assoc, ← hfront]
  obtain ⟨-, hdrop⟩ := encode_split hlines
  rw [lineAfter_append (lineFeed_notMem_lineBefore front), lineAfter_cons hc] at hthrough
  rw [htake, count_lineFeed] at hnumber
  rw [htake, hstart] at hoffset htext
  rw [hdrop, hthrough, List.append_assoc, List.cons_append, ← Utf8.encode_ofList] at htext
  have hlength := congrArg List.length htake
  rw [List.length_take, length_flatMap_utf8EncodeChar] at hlength
  have hcount : byteCount front = byteCount outer + byteCount (lineBefore front) := by
    rw [← byteCount_append, ← hfront]
  rw [hlength, Nat.sub_eq_of_eq_add' hcount] at hoffset
  refine ⟨feed, hfeed, ?_⟩
  rw [← hnumber, ← hoffset, ← Utf8.encode_injective htext]

end Line

end LetScript
