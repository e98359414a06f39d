import LetScript.Proofs.Scanner
import LetScript.Proofs.Window
import Mathlib.Data.List.GetD

/-!
# What a scanner asks for is there

Wherever a scanner comes to, it is the one that looks at some byte of its source: the offset to read
from next and the byte itself are determined by the offset of this byte. It draws the tokens that a
lexer draws. A text that it asks for starts and ends at an ASCII byte or right after one, hence
between two characters, and it looks for a run only where one starts, so it is always told of one.
-/

namespace LetScript

/-- The search finds the longest front of a text that has characters of the run alone, wherever the
text starts with one of these. -/
structure FindsRuns (find : Run → String → Option Nat) : Prop where
  /-- Something is found if the first character may stand in the run. -/
  isSome {run : Run} {text : String} {c : Char} (hfirst : text.toList.head? = some c)
    (hc : run.includes c) : (find run text).isSome
  /-- What is found is a front of the text, by the number of its bytes. -/
  front {run : Run} {text : String} {length : Nat} (h : find run text = some length) :
    ∃ front rest, text = front ++ rest ∧ front.utf8ByteSize = length ∧
      ∀ c ∈ front.toList, run.includes c
  /-- There is no longer one. -/
  longest {run : Run} {front rest : String} {length : Nat}
    (h : find run (front ++ rest) = some length) (hfront : ∀ c ∈ front.toList, run.includes c) :
    front.utf8ByteSize ≤ length

/-- The source gives what it is asked for: the index is that of a byte, both ends of the text are
between two characters, and a run is found that takes at least one byte and ends before the first
byte that does not belong to it. -/
def Request.Granted (source : String) : Request → Prop
  | .byte index => index < source.utf8ByteSize
  | .slice start stop => start ≤ stop ∧ String.Pos.Raw.IsValid source ⟨start⟩ ∧
      String.Pos.Raw.IsValid source ⟨stop⟩
  | .run sort start found => ∃ length, found = some length ∧ 0 < length ∧
      (∀ index, start ≤ index → index < start + length →
        ∃ byte, (Utf8.encode source)[index]? = some byte ∧ sort.includesByte byte) ∧
      ∀ byte, (Utf8.encode source)[start + length]? = some byte → sort.includesByte byte = false

namespace Utf8

/-- A part of a text is given between its ends. -/
theorem slice?_append (front text rest : String) :
    slice? (front ++ text ++ rest) front.utf8ByteSize (front ++ text).utf8ByteSize = some text ∧
      (Request.slice front.utf8ByteSize (front ++ text).utf8ByteSize).Granted
        (front ++ text ++ rest) := by
  have hstart : String.Pos.Raw.IsValid (front ++ text ++ rest) ⟨front.utf8ByteSize⟩ :=
    String.Pos.Raw.isValid_iff_exists_append.mpr ⟨front, text ++ rest, String.append_assoc, rfl⟩
  have hstop : String.Pos.Raw.IsValid (front ++ text ++ rest) ⟨(front ++ text).utf8ByteSize⟩ :=
    String.Pos.Raw.isValid_iff_exists_append.mpr ⟨front ++ text, rest, rfl, rfl⟩
  have hle : front.utf8ByteSize ≤ (front ++ text).utf8ByteSize := by
    rw [String.utf8ByteSize_append]
    exact Nat.le_add_right _ _
  refine ⟨?_, hle, hstart, hstop⟩
  rw [slice?, if_pos ⟨hle, hstart, hstop⟩, decode?_eq_some_iff, String.utf8ByteSize_append,
    encode_append, encode_append, List.append_assoc, ← length_encode, ← length_encode,
    List.extract_eq_take_drop, List.drop_left, Nat.add_sub_cancel_left, List.take_left]

variable {source : String} {start : Nat}

section Drop

variable {byte : UInt8} {rest : List UInt8}

theorem lt_of_drop (h : (encode source).drop start = byte :: rest) :
    start < source.utf8ByteSize := by
  rw [← length_encode, ← Nat.not_le, ← List.drop_eq_nil_iff, h]
  exact List.cons_ne_nil _ _

theorem drop_succ (h : (encode source).drop start = byte :: rest) :
    (encode source).drop (start + 1) = rest := by
  rw [← List.tail_drop, h, List.tail_cons]

/-- A source may be cut before an ASCII byte. -/
theorem exists_append_of_drop
    (h : (encode source).drop start = byte :: rest) (hascii : byte < 0x80) :
    ∃ front text, source = front ++ text ∧ front.utf8ByteSize = start ∧
      encode text = byte :: rest := by
  have hcut : encode source = (encode source).take start ++ byte :: rest := by
    rw [← h, List.take_append_drop]
  obtain ⟨front, text, happend, hfront, htext⟩ := exists_append_before_ascii hcut hascii
  refine ⟨front, text, happend, ?_, htext⟩
  rw [← length_encode, hfront, List.length_take, length_encode,
    Nat.min_eq_left (Nat.le_of_lt (lt_of_drop h))]

/-- From an ASCII byte on, all of a source is given. -/
theorem exists_slice_of_ascii
    (h : (encode source).drop start = byte :: rest) (hascii : byte < 0x80) :
    ∃ text, encode text = byte :: rest ∧ slice? source start source.utf8ByteSize = some text ∧
      (Request.slice start source.utf8ByteSize).Granted source := by
  obtain ⟨front, text, rfl, rfl, htext⟩ := exists_append_of_drop h hascii
  have hslice := slice?_append front text ""
  rw [String.append_empty] at hslice
  exact ⟨text, htext, hslice⟩

end Drop

/-- A row of ASCII bytes is given as the text read off them. -/
theorem slice?_of_ascii {bytes rest : List UInt8} (h : (encode source).drop start = bytes ++ rest)
    (hne : bytes ≠ []) (hascii : ∀ byte ∈ bytes, byte < 0x80) :
    slice? source start (start + bytes.length) = some (latinText bytes) ∧
      (Request.slice start (start + bytes.length)).Granted source := by
  have hfirst : (encode source).drop start = bytes.head hne :: (bytes.tail ++ rest) := by
    rw [h, ← List.cons_append, List.cons_head_tail]
  obtain ⟨front, tail, rfl, rfl, htail⟩ :=
    exists_append_of_drop hfirst (hascii _ (List.head_mem hne))
  have hlast : encode tail = bytes.dropLast ++ [bytes.getLast hne] ++ rest := by
    rw [htail, ← List.cons_append, List.cons_head_tail, List.dropLast_append_getLast]
  obtain ⟨text, rest, rfl, htext, -⟩ :=
    exists_append_of_ascii hlast (hascii _ (List.getLast_mem hne))
  rw [List.dropLast_append_getLast] at htext
  obtain rfl : text = latinText bytes :=
    encode_injective (htext.trans (encode_latinText hascii).symm)
  have hslice := slice?_append front (latinText bytes) rest
  rwa [String.append_assoc, String.utf8ByteSize_append, ← length_encode (latinText bytes),
    htext] at hslice

end Utf8

/-- The first byte of a text may stand in a run just if its first character may. -/
theorem Run.exists_first (run : Run) {text : String} {byte : UInt8}
    (h : (Utf8.encode text).head? = some byte) :
    ∃ c rest, text.toList = c :: rest ∧ run.includesByte byte = run.includes c := by
  obtain ⟨c, rest, htext, hhead⟩ := exists_head_of_encode h
  exact ⟨c, rest, htext, head_utf8EncodeChar hhead run.includesByte_eq
    Run.lt_of_includesByte Run.lt_of_includes⟩

namespace FindsRuns

variable {find : Run → String → Option Nat} {run : Run}

/-- What comes after that which is found does not belong to the run. -/
theorem includes_eq_false (hfind : FindsRuns find) {front back : String} {c : Char}
    {rest : List Char} (h : find run (front ++ back) = some front.utf8ByteSize)
    (hfront : ∀ c ∈ front.toList, run.includes c) (hback : back.toList = c :: rest) :
    run.includes c = false := by
  by_contra hc
  obtain rfl : back = .ofList [c] ++ .ofList rest := by
    rw [← String.ofList_append, ← String.ofList_toList (s := back), hback]
    rfl
  rw [← String.append_assoc] at h
  have hall : ∀ other ∈ (front ++ .ofList [c]).toList, run.includes other := by
    simpa using fun other hother => hother.elim (hfront other) fun heq => by simpa [heq] using hc
  have hle := hfind.longest h hall
  rw [String.utf8ByteSize_append, ← Utf8.length_encode (.ofList [c]), Utf8.encode_ofList,
    List.flatMap_singleton, String.length_utf8EncodeChar] at hle
  have hpos := Char.utf8Size_pos c
  omega

/-- At a byte of a run the search finds the run up to the first byte that does not belong to it. -/
theorem find_eq (hfind : FindsRuns find) {text : String} {byte : UInt8} {rest : List UInt8}
    (htext : Utf8.encode text = byte :: rest) (hbyte : run.includesByte byte) :
    find run text = some (byte :: rest.takeWhile run.includesByte).length := by
  obtain ⟨c, chars, hchars, hc⟩ := Run.exists_first run (congrArg List.head? htext)
  rw [hbyte] at hc
  obtain ⟨length, hlength⟩ := Option.isSome_iff_exists.mp
    (hfind.isSome (congrArg List.head? hchars) hc.symm)
  obtain ⟨front, back, rfl, rfl, hfront⟩ := hfind.front hlength
  have hne : front ≠ "" := by
    rintro rfl
    rw [String.empty_append] at hchars
    exact absurd hc.symm (by simp [hfind.includes_eq_false hlength hfront hchars])
  have hback : ∀ other ∈ (Utf8.encode back).head?, run.includesByte other = false := by
    intro other hother
    obtain ⟨next, others, hnext, hincludes⟩ := Run.exists_first run hother
    rw [hincludes, hfind.includes_eq_false hlength hfront hnext]
  obtain ⟨first, more, hencode, hrun, -⟩ :=
    exists_bytes_of_chars hne hfront run.includesByte_eq Run.lt_of_includes
  have hwhole : byte :: rest.takeWhile run.includesByte = Utf8.encode front := by
    rw [← List.takeWhile_cons_of_pos hbyte, ← htext, Utf8.encode_append, hencode]
    exact takeWhile_append_of_head hrun hback
  rw [hlength, hwhole, Utf8.length_encode]

end FindsRuns

namespace Scanner

/-- The scanner that looks at byte `offset` of a source. -/
def standing (source file : String) (offset : Nat) : Scanner where
  source := source
  file := file
  position := offset
  readPosition := min (offset + 1) source.utf8ByteSize
  current := (Utf8.encode source)[offset]?.getD 0

variable {source file : String} {offset : Nat}

theorem standing_size :
    standing source file source.utf8ByteSize =
      ⟨source, file, source.utf8ByteSize, source.utf8ByteSize, 0⟩ := by
  rw [standing, Nat.min_eq_right (Nat.le_succ _), ← Utf8.length_encode, List.getElem?_length]
  rfl

theorem standing_of_lt (h : offset < source.utf8ByteSize) :
    standing source file offset =
      ⟨source, file, offset, offset + 1, (Utf8.encode source)[offset]?.getD 0⟩ := by
  rw [standing, Nat.min_eq_left h]

theorem current_of_drop {byte : UInt8} {rest : List UInt8}
    (h : (Utf8.encode source).drop offset = byte :: rest) :
    (standing source file offset).current = byte := by
  rw [standing, ← List.head?_drop, h]
  rfl

end Scanner

namespace Scan

variable {α β : Type} {source file : String} {start middle stop : Nat}

/-- What comes after code that was not stopped goes on from its value and its scanner. -/
theorem bind_of_result {first : Scan α} {next : α → Scan β} {s after : Scanner} {value : α}
    (h : (first s).2 = some (value, after)) :
    (first >>= next) s = ((first s).1 ++ (next value after).1, (next value after).2) := by
  change Scan.bind first next s = _
  unfold Scan.bind
  generalize first s = run at h ⊢
  obtain ⟨asked, _⟩ := run
  obtain rfl := h
  rfl

/-- The code leads a scanner from one byte of the source to another, with a value, and is granted
all that it asks for. -/
structure Reads (scan : Scan α) (source file : String) (start : Nat) (value : α)
    (stop : Nat) : Prop where
  result_eq : (scan (.standing source file start)).2 = some (value, .standing source file stop)
  granted : ∀ request ∈ (scan (.standing source file start)).1, request.Granted source

theorem Reads.pure (value : α) : (pure value : Scan α).Reads source file start value start :=
  ⟨rfl, List.forall_mem_nil _⟩

theorem Reads.bind {first : Scan α} {next : α → Scan β} {value : α} {result : β}
    (hfirst : first.Reads source file start value middle)
    (hnext : (next value).Reads source file middle result stop) :
    (first >>= next).Reads source file start result stop := by
  constructor
  · rw [bind_of_result hfirst.result_eq]
    exact hnext.result_eq
  · rw [bind_of_result hfirst.result_eq]
    exact List.forall_mem_append.mpr ⟨hfirst.granted, hnext.granted⟩

theorem Reads.of_eq {scan other : Scan α} {value : α}
    (heq : scan (.standing source file start) = other (.standing source file start))
    (h : other.Reads source file start value stop) : scan.Reads source file start value stop :=
  ⟨heq ▸ h.result_eq, heq ▸ h.granted⟩

/-- Code that looks at the scanner does what comes after that. -/
theorem Reads.scanner_bind {next : Scanner → Scan β} {result : β}
    (h : (next (.standing source file start)).Reads source file start result stop) :
    (scanner >>= next).Reads source file start result stop :=
  Reads.bind ⟨rfl, List.forall_mem_nil _⟩ h

theorem Reads.ite {condition : Prop} [Decidable condition] {first second : Scan α} {value : α}
    (hfirst : condition → first.Reads source file start value stop)
    (hsecond : ¬ condition → second.Reads source file start value stop) :
    (if condition then first else second).Reads source file start value stop := by
  split
  · exact hfirst ‹_›
  · exact hsecond ‹_›

theorem reads_become {after : Scanner} (h : after = .standing source file stop) :
    (become after).Reads source file start () stop :=
  ⟨h ▸ rfl, List.forall_mem_nil _⟩

theorem reads_askByte {index : Nat} (h : index < source.utf8ByteSize) :
    (askByte index).Reads source file start ((Utf8.encode source)[index]?.getD 0) start := by
  have hlt : index < (Utf8.encode source).length := (Utf8.length_encode source).symm ▸ h
  constructor
  · change ((Utf8.encode source)[index]?.map _) = _
    rw [List.getElem?_eq_getElem hlt]
    rfl
  · exact List.forall_mem_singleton.mpr h

theorem reads_askSlice {first last : Nat} {text : String}
    (h : Utf8.slice? source first last = some text ∧ (Request.slice first last).Granted source) :
    (askSlice first last).Reads source file start text start := by
  constructor
  · change (Utf8.slice? source first last).map _ = _
    rw [h.1]
    rfl
  · exact List.forall_mem_singleton.mpr h.2

/-- Reading on leads to the next byte. -/
theorem reads_readByte (h : start < source.utf8ByteSize) :
    readByte.Reads source file start () (start + 1) := by
  refine Reads.scanner_bind ?_
  rw [Scanner.standing_of_lt h]
  refine .ite (fun hend => ?_) fun hmore => ?_
  · -- from the last byte the scanner goes to the end, where it looks at zero
    have hlast : start + 1 = source.utf8ByteSize := Nat.le_antisymm h hend
    exact reads_become (hlast ▸ Scanner.standing_size.symm)
  · have hnext : start + 1 < source.utf8ByteSize := Nat.not_le.mp hmore
    exact (reads_askByte hnext).bind (reads_become (Scanner.standing_of_lt hnext).symm)

theorem reads_peekByte (h : start < source.utf8ByteSize) :
    peekByte.Reads source file start ((Utf8.encode source)[start + 1]?.getD 0) start := by
  refine Reads.scanner_bind ?_
  rw [Scanner.standing_of_lt h]
  refine .ite (fun hend => ?_) fun hmore => reads_askByte (Nat.not_le.mp hmore)
  have hlast : start + 1 = (Utf8.encode source).length :=
    Utf8.length_encode source ▸ Nat.le_antisymm h hend
  rw [hlast, List.getElem?_length]
  exact .pure 0

theorem reads_advance {count : Nat} (h : start + count ≤ source.utf8ByteSize) :
    (advance count).Reads source file start () (start + count) := by
  induction count generalizing start with
  | zero => exact .pure ()
  | succ count ih =>
    rw [← Nat.add_assoc, Nat.add_right_comm] at h ⊢
    exact (reads_readByte (by omega)).bind (ih h)

theorem skipSeparators_of_separator {s : Scanner} (h : s.atEnd = false ∧ isSeparator s.current) :
    skipSeparators s = (readByte >>= fun _ => skipSeparators : Scan Unit) s := by
  change _ = Scan.bind readByte (fun _ => skipSeparators) s
  rw [skipSeparators, dif_pos h]
  unfold Scan.bind
  split <;> simp_all

/-- Skipping separators leads to the first byte that is none, or to the end. -/
theorem reads_skipSeparators (file : String) (h : start ≤ source.utf8ByteSize) :
    Reads skipSeparators source file start ()
      (start + (((Utf8.encode source).drop start).takeWhile isSeparator).length) := by
  have hstop {s : Scanner} (hs : ¬ (s.atEnd = false ∧ isSeparator s.current)) :
      skipSeparators s = (pure () : Scan Unit) s := by
    rw [skipSeparators, dif_neg hs]
    rfl
  generalize hbytes : (Utf8.encode source).drop start = bytes
  induction bytes generalizing start with
  | nil =>
    refine Reads.of_eq (hstop fun hs => ?_) (.pure ())
    rw [List.drop_eq_nil_iff, Utf8.length_encode] at hbytes
    exact absurd hs.1 (by simp [Scanner.atEnd, Scanner.standing, Scanner.size, hbytes])
  | cons byte rest ih =>
    have hlt : start < source.utf8ByteSize := Utf8.lt_of_drop hbytes
    have hcurrent : (Scanner.standing source file start).current = byte :=
      Scanner.current_of_drop hbytes
    by_cases hseparator : isSeparator byte
    · have hrest : Reads (readByte >>= fun _ => skipSeparators) source file start ()
          (start + 1 + (rest.takeWhile isSeparator).length) :=
        (reads_readByte hlt).bind (ih hlt (Utf8.drop_succ hbytes))
      rw [List.takeWhile_cons_of_pos hseparator, List.length_cons, ← Nat.add_assoc,
        Nat.add_right_comm]
      refine Reads.of_eq (skipSeparators_of_separator ⟨?_, hcurrent ▸ hseparator⟩) hrest
      exact decide_eq_false (Nat.not_le.mpr hlt)
    · rw [List.takeWhile_cons_of_neg hseparator]
      exact Reads.of_eq (hstop fun hs => hseparator (hcurrent ▸ hs.2)) (.pure ())

theorem reads_token (kind : Kind) (literal : String) (first : Nat) :
    (token kind literal first).Reads source file start
      ⟨kind, literal, ⟨.atOffset first file, .atOffset start file⟩⟩ start :=
  .scanner_bind (.pure _)

section Drop

variable {byte : UInt8} {rest : List UInt8}

theorem reads_readSingle (kind : Kind) (h : (Utf8.encode source).drop start = byte :: rest) :
    (readSingle kind).Reads source file start
      ⟨kind, latinText [byte], .ofLength start 1 file⟩ (start + 1) := by
  have hlt : start < source.utf8ByteSize := Utf8.lt_of_drop h
  have hcurrent : (Scanner.standing source file start).current = byte := Scanner.current_of_drop h
  refine Reads.scanner_bind ((reads_readByte hlt).bind ?_)
  rw [hcurrent]
  exact reads_token kind _ _

/-- A token is read that ends after `=` if this comes next, and before it otherwise. -/
theorem reads_readWithEquals (single double : Kind)
    (h : (Utf8.encode source).drop start = byte :: rest) (hascii : byte < 0x80) :
    let found := if rest.head? = some 0x3d then (double, [byte, 0x3d]) else (single, [byte])
    (readWithEquals single double).Reads source file start
      ⟨found.1, latinText found.2, .ofLength start found.2.length file⟩
      (start + found.2.length) := by
  have hnext : (Utf8.encode source)[start + 1]? = rest.head? := by
    rw [← Utf8.drop_succ h, List.head?_drop]
  refine (reads_peekByte (Utf8.lt_of_drop h)).bind ?_
  rw [hnext]
  refine .ite (fun hequals => ?_) fun hother => ?_
  · have hhead : rest.head? = some 0x3d := by
      cases hrest : rest.head? with
      | none => simp [hrest] at hequals
      | some other => simpa [hrest] using hequals
    obtain ⟨tail, rfl⟩ := List.head?_eq_some_iff.mp hhead
    have hlt : start + 1 < source.utf8ByteSize := Utf8.lt_of_drop (Utf8.drop_succ h)
    have hpair : ∀ other ∈ [byte, 0x3d], other < 0x80 :=
      List.forall_mem_cons.mpr ⟨hascii, List.forall_mem_singleton.mpr (by decide)⟩
    have hslice := Utf8.slice?_of_ascii h (List.cons_ne_nil _ _) hpair
    rw [if_pos hhead]
    exact .scanner_bind ((reads_advance hlt).bind (.scanner_bind ((reads_askSlice hslice).bind
      (reads_token double _ _))))
  · rw [if_neg fun hhead => hother (by rw [hhead]; rfl)]
    exact reads_readSingle single h

variable {find : Run → String → Option Nat} {run : Run}

/-- The bytes of a run are followed by one that does not belong to it. -/
theorem drop_eq_run (run : Run) (h : (Utf8.encode source).drop start = byte :: rest) :
    (Utf8.encode source).drop start =
      (byte :: rest.takeWhile run.includesByte) ++ rest.dropWhile run.includesByte := by
  rw [h, List.cons_append, List.takeWhile_append_dropWhile]

/-- At a byte of a run, a run is found that ends where it should. -/
theorem reads_askRun (hfind : FindsRuns find) {text : String}
    (htext : Utf8.encode text = byte :: rest) (hbyte : run.includesByte byte)
    (h : (Utf8.encode source).drop start = byte :: rest) :
    (askRun find run start text).Reads source file start
      (some (byte :: rest.takeWhile run.includesByte).length) start := by
  have hfound := hfind.find_eq htext hbyte
  have hwhole := drop_eq_run run h
  refine ⟨by rw [← hfound]; rfl, List.forall_mem_singleton.mpr
    ⟨_, hfound, Nat.succ_pos _, fun index hle hlt => ?_, fun other hother => ?_⟩⟩
  · obtain ⟨count, rfl⟩ := Nat.exists_eq_add_of_le hle
    have hcount := Nat.add_lt_add_iff_left.mp hlt
    refine ⟨(byte :: rest.takeWhile run.includesByte)[count], ?_, ?_⟩
    · rw [← List.getElem?_drop, hwhole, List.getElem?_append_left hcount,
        List.getElem?_eq_getElem hcount]
    · rcases List.mem_cons.mp (List.getElem_mem hcount) with heq | hmem
      · rw [heq, hbyte]
      · exact List.mem_takeWhile_imp hmem
  · rw [← List.getElem?_drop, hwhole, List.getElem?_append_right (Nat.le_refl _), Nat.sub_self,
      ← List.head?_eq_getElem?] at hother
    simpa [hother] using List.head?_dropWhile_not run.includesByte rest

/-- A run is read from its first byte through its last. -/
theorem reads_readRun (hfind : FindsRuns find)
    (h : (Utf8.encode source).drop start = byte :: rest) (hbyte : run.includesByte byte) :
    (readRun find run).Reads source file start
      (start, latinText (byte :: rest.takeWhile run.includesByte))
      (start + (byte :: rest.takeWhile run.includesByte).length) := by
  obtain ⟨text, htext, hslice⟩ := Utf8.exists_slice_of_ascii h (Run.lt_of_includesByte hbyte)
  have hascii : ∀ other ∈ byte :: rest.takeWhile run.includesByte, other < 0x80 :=
    List.forall_mem_cons.mpr ⟨Run.lt_of_includesByte hbyte,
      fun other hother => Run.lt_of_includesByte (List.mem_takeWhile_imp hother)⟩
  have hliteral := Utf8.slice?_of_ascii (drop_eq_run run h) (List.cons_ne_nil _ _) hascii
  have hle : start + (byte :: rest.takeWhile run.includesByte).length ≤ source.utf8ByteSize :=
    hliteral.2.2.2.le_rawEndPos
  refine .scanner_bind ((reads_askSlice hslice).bind ((reads_askRun hfind htext hbyte h).bind ?_))
  refine (reads_advance hle).bind (.scanner_bind ?_)
  exact (reads_askSlice hliteral).bind (.pure _)

end Drop

end Scan

theorem longestToken_equalsSign (rest : List UInt8) :
    longestToken 0x3d rest =
      if rest.head? = some 0x3d then (.equals, [0x3d, 0x3d]) else (.assignment, [0x3d]) := by
  simp [longestToken, isWordByte, isDigitByte, Kind.ofByte]

theorem longestToken_notSign (rest : List UInt8) :
    longestToken 0x21 rest =
      if rest.head? = some 0x3d then (.notEquals, [0x21, 0x3d]) else (.not, [0x21]) := by
  simp [longestToken, isWordByte, isDigitByte, Kind.ofByte]

namespace Lexer

/-- The lexer that stands at an offset of a source. -/
def standing (source file : String) (offset : Nat) : Lexer :=
  ⟨file, offset, (Utf8.encode source).drop offset⟩

variable {source file : String} {start : Nat}

theorem skip_standing (count : Nat) :
    (standing source file start).skip count = standing source file (start + count) := by
  simp [standing, skip]

theorem toEnd_standing (h : start ≤ source.utf8ByteSize) :
    (standing source file start).toEnd = standing source file source.utf8ByteSize := by
  have hend : start + (standing source file start).rest.length = source.utf8ByteSize := by
    rw [standing, List.length_drop, Utf8.length_encode, Nat.add_sub_cancel' h]
  rw [toEnd, skip_standing, hend]

/-- The token that is drawn after `n` others, the end of the input being repeated for ever. -/
def tokenAt (lexer : Lexer) (n : Nat) : Token :=
  lexer.content.getD n (.endOfInput lexer.finish)

theorem tokenAt_zero (lexer : Lexer) : lexer.tokenAt 0 = lexer.next.1 := by
  rw [token_next, tokenAt, List.getD_eq_getElem?_getD, List.head?_eq_getElem?]

theorem tokenAt_succ (lexer : Lexer) (n : Nat) :
    lexer.tokenAt (n + 1) = lexer.next.2.tokenAt n := by
  rw [tokenAt, tokenAt, content_next, finish_next, List.getD_eq_getElem?_getD,
    List.getD_eq_getElem?_getD, List.getElem?_tail]

end Lexer

namespace Scan

variable {source file : String} {start : Nat} {find : Run → String → Option Nat}

/-- Where a byte is left, the longest token there is read. -/
theorem reads_nextToken_of_drop (hfind : FindsRuns find) {middle : Nat} {byte : UInt8}
    {rest : List UInt8} (hskip : Reads skipSeparators source file start () middle)
    (h : (Utf8.encode source).drop middle = byte :: rest) :
    (nextToken find).Reads source file start
      ⟨(longestToken byte rest).1, latinText (longestToken byte rest).2,
        .ofLength middle (longestToken byte rest).2.length file⟩
      (middle + (longestToken byte rest).2.length) := by
  have hcurrent : (Scanner.standing source file middle).current = byte :=
    Scanner.current_of_drop h
  have hmore : ¬ (Scanner.standing source file middle).atEnd = true :=
    fun hend => Nat.not_le.mpr (Utf8.lt_of_drop h) (of_decide_eq_true hend)
  refine hskip.bind (.scanner_bind (.ite (fun hend => absurd hend hmore) fun _ => ?_))
  rw [hcurrent]
  refine .ite (fun hequals => ?_) fun hequals => .ite (fun hnot => ?_) fun hnot =>
    .ite (fun hword => ?_) fun hword => .ite (fun hdigit => ?_) fun hdigit => ?_
  · subst hequals
    rw [longestToken_equalsSign]
    exact reads_readWithEquals .assignment .equals h (by decide)
  · subst hnot
    rw [longestToken_notSign]
    exact reads_readWithEquals .not .notEquals h (by decide)
  · rw [longestToken, if_pos hword]
    have hrun : (readRun find .word).Reads source file middle _ _ := reads_readRun hfind h hword
    exact hrun.bind (reads_token _ _ _)
  · rw [longestToken, if_neg hword, if_pos hdigit]
    have hrun : (readRun find .digits).Reads source file middle _ _ := reads_readRun hfind h hdigit
    exact hrun.bind (reads_token _ _ _)
  · rw [longestToken, if_neg hword, if_neg hdigit, if_neg fun hboth => hequals hboth.1,
      if_neg fun hboth => hnot hboth.1]
    exact reads_readSingle _ h

/-- The token that a lexer draws is read, through its last byte. -/
theorem reads_nextToken_of_next? (hfind : FindsRuns find) {token : Token} {after : Lexer}
    (hle : start ≤ source.utf8ByteSize)
    (h : (Lexer.standing source file start).next? = some (token, after)) :
    (nextToken find).Reads source file start token after.offset ∧
      after = .standing source file after.offset := by
  obtain ⟨byte, rest, hrest, rfl, rfl⟩ := Lexer.next?_eq_some_iff.mp h
  rw [Lexer.skipSeparators, Lexer.skip_standing] at hrest ⊢
  rw [Lexer.skip_standing]
  exact ⟨reads_nextToken_of_drop hfind (reads_skipSeparators file hle) hrest, rfl⟩

/-- Where no token is left, the end of the input is read, and the scanner is led to the end. -/
theorem reads_nextToken_of_next?_eq_none (hle : start ≤ source.utf8ByteSize)
    (h : (Lexer.standing source file start).next? = none) :
    (nextToken find).Reads source file start
      (.endOfInput (.atOffset source.utf8ByteSize file)) source.utf8ByteSize := by
  have hskip := reads_skipSeparators file hle
  have hlength := (List.takeWhile_prefix (p := isSeparator)
    (l := (Utf8.encode source).drop start)).length_le
  rw [List.length_drop, Utf8.length_encode] at hlength
  rw [Lexer.next?_eq_none_iff, Lexer.skipSeparators, Lexer.skip_standing] at h
  have hend := List.drop_eq_nil_iff.mp h
  rw [Utf8.length_encode] at hend
  have hstop : start + (((Utf8.encode source).drop start).takeWhile isSeparator).length =
      source.utf8ByteSize := Nat.le_antisymm (by omega) hend
  rw [hstop] at hskip
  refine hskip.bind (.scanner_bind (.ite (fun _ => reads_token .eof "" _) fun hmore => ?_))
  exact absurd (decide_eq_true (Nat.le_refl source.utf8ByteSize)) hmore

/-- A scanner reads the token that a lexer draws and stands where the lexer does, which is further
on or, with the end of the input, at the end. -/
theorem exists_reads_nextToken (hfind : FindsRuns find) (file : String)
    (hle : start ≤ source.utf8ByteSize) :
    ∃ stop ≤ source.utf8ByteSize,
      (nextToken find).Reads source file start (Lexer.standing source file start).next.1 stop ∧
      (Lexer.standing source file start).next.2 = .standing source file stop ∧
      ((Lexer.standing source file start).next.1.kind ≠ .eof ∧ start < stop ∨
        (Lexer.standing source file start).next.1 =
            .endOfInput (.atOffset source.utf8ByteSize file) ∧
          stop = source.utf8ByteSize) := by
  cases hnext : (Lexer.standing source file start).next? with
  | none =>
    rw [Lexer.next_of_next?_eq_none hnext, Lexer.finish, Lexer.toEnd_standing hle]
    exact ⟨_, Nat.le_refl _, reads_nextToken_of_next?_eq_none hle hnext, rfl, .inr ⟨rfl, rfl⟩⟩
  | some drawn =>
    obtain ⟨token, after⟩ := drawn
    obtain ⟨hreads, hafter⟩ := reads_nextToken_of_next? hfind hle hnext
    obtain ⟨-, -, hstart, hlt, hend⟩ := Lexer.start_of_next? hnext
    have hmem : token ∈ (Lexer.standing source file start).content := by
      rw [Lexer.content_of_next? hnext]
      exact List.mem_cons_self
    rw [Lexer.toEnd_standing hle] at hend
    have hoffset : after.offset + after.rest.length = source.utf8ByteSize :=
      congrArg Lexer.offset hend
    rw [Lexer.next_of_next? hnext]
    exact ⟨after.offset, hoffset ▸ Nat.le_add_right _ _, hreads, hafter,
      .inl ⟨Lexer.kind_ne_eof_of_mem_content hmem, hstart.trans_lt hlt⟩⟩

/-- The tokens that a lexer draws one after the other are read. -/
theorem exists_reads_nextTokens (hfind : FindsRuns find) (file : String)
    (hle : start ≤ source.utf8ByteSize) (count : Nat) :
    ∃ stop ≤ source.utf8ByteSize,
      (nextTokens find count).Reads source file start
        ((List.range count).map (Lexer.standing source file start).tokenAt) stop ∧
      ∀ n, (Lexer.standing source file stop).tokenAt n =
        (Lexer.standing source file start).tokenAt (count + n) := by
  -- the lexer that stands where the scanner does is carried along
  induction count generalizing start with
  | zero => exact ⟨start, hle, .pure _, fun n => by rw [Nat.zero_add]⟩
  | succ count ih =>
    obtain ⟨middle, hmiddle, hfirst, hnext, -⟩ := exists_reads_nextToken hfind file hle
    obtain ⟨stop, hstop, hrest, hlater⟩ := ih hmiddle
    rw [← hnext] at hrest hlater
    refine ⟨stop, hstop, ?_, fun n => ?_⟩
    · have hlist : (List.range (count + 1)).map (Lexer.standing source file start).tokenAt =
          (Lexer.standing source file start).next.1 ::
            (List.range count).map (Lexer.standing source file start).next.2.tokenAt := by
        rw [List.range_succ_eq_map, List.map_cons, List.map_map, Lexer.tokenAt_zero]
        exact congrArg _ (List.map_congr_left fun n _ => Lexer.tokenAt_succ _ n)
      rw [hlist]
      exact hfirst.bind (hrest.bind (.pure _))
    · rw [hlater, ← Lexer.tokenAt_succ, Nat.add_right_comm]

/-- At the end of its source a scanner reads the end of the input and stays where it is. -/
theorem reads_nextTokens_at_end (count : Nat) :
    (nextTokens find count).Reads source file source.utf8ByteSize
      (List.replicate count (.endOfInput (.atOffset source.utf8ByteSize file)))
      source.utf8ByteSize := by
  have hnext : (Lexer.standing source file source.utf8ByteSize).next? = none :=
    Lexer.next?_of_rest_eq_nil
      (List.drop_eq_nil_iff.mpr (Nat.le_of_eq (Utf8.length_encode source)))
  induction count with
  | zero => exact .pure []
  | succ count ih =>
    exact (reads_nextToken_of_next?_eq_none (Nat.le_refl _) hnext).bind (ih.bind (.pure _))

/-- All tokens are read in as many rounds as there are tokens, the end of the input among them. -/
theorem reads_allTokens (hfind : FindsRuns find) (hle : start ≤ source.utf8ByteSize) {rounds : Nat}
    (hrounds : (Lexer.standing source file start).content.length < rounds) :
    (allTokens find rounds).Reads source file start (Lexer.standing source file start).tokens
      source.utf8ByteSize := by
  induction rounds generalizing start with
  | zero => exact absurd hrounds (Nat.not_lt_zero _)
  | succ rounds ih =>
    cases hnext : (Lexer.standing source file start).next? with
    | none =>
      have hfirst : (nextToken find).Reads source file start _ _ :=
        reads_nextToken_of_next?_eq_none hle hnext
      rw [Lexer.tokens, Lexer.content_of_next?_eq_none hnext, Lexer.finish,
        Lexer.toEnd_standing hle]
      exact hfirst.bind (.ite (fun _ => .pure _) fun hkind => absurd rfl hkind)
    | some drawn =>
      obtain ⟨token, after⟩ := drawn
      obtain ⟨stop, hstop, hfirst, hafter, -⟩ := exists_reads_nextToken hfind file hle
      have hcontent := Lexer.content_of_next? hnext
      have htokens : (Lexer.standing source file start).tokens = token :: after.tokens := by
        have hfinish := Lexer.finish_next (Lexer.standing source file start)
        rw [Lexer.next_of_next? hnext] at hfinish
        rw [Lexer.tokens, Lexer.tokens, hcontent, hfinish, List.cons_append]
      rw [Lexer.next_of_next? hnext] at hfirst hafter
      obtain rfl : after = .standing source file stop := hafter
      have hkind : token.kind ≠ .eof :=
        Lexer.kind_ne_eof_of_mem_content (hcontent ▸ List.mem_cons_self)
      rw [hcontent, List.length_cons] at hrounds
      rw [htokens]
      refine hfirst.bind (.ite (fun heof => absurd heof hkind) fun _ => ?_)
      exact (ih hstop (Nat.lt_of_succ_lt_succ hrounds)).bind (.pure _)

/-- A scanner looks at the first byte once it has read on. -/
theorem readByte_ofString (source : String) (file : Option String) :
    (readByte (.ofString source file)).2 =
        some ((), .standing source (file.getD Lexer.defaultFile) 0) ∧
      ∀ request ∈ (readByte (.ofString source file)).1, request.Granted source := by
  have hscanner : readByte (.ofString source file) =
      (if source.utf8ByteSize ≤ 0 then
        become ⟨source, file.getD Lexer.defaultFile, source.utf8ByteSize, source.utf8ByteSize, 0⟩
      else do
        let byte ← askByte 0
        become ⟨source, file.getD Lexer.defaultFile, 0, 1, byte⟩) (.ofString source file) := rfl
  rw [hscanner]
  by_cases hempty : source.utf8ByteSize ≤ 0
  · rw [if_pos hempty, ← Scanner.standing_size, Nat.le_zero.mp hempty]
    exact ⟨rfl, List.forall_mem_nil _⟩
  · rw [if_neg hempty]
    have hlt : 0 < source.utf8ByteSize := Nat.not_le.mp hempty
    have hbyte : (askByte 0 (.ofString source file)).2 =
        some ((Utf8.encode source)[0]?.getD 0, .ofString source file) := by
      change (Utf8.encode source)[0]?.map _ = _
      rw [List.getElem?_eq_getElem (Utf8.length_encode source ▸ hlt)]
      rfl
    rw [bind_of_result hbyte, Scanner.standing_of_lt hlt]
    exact ⟨rfl, List.forall_mem_singleton.mpr hlt⟩

/-- What is read from the first byte on is read in the source. -/
theorem onSource_of_reads {α : Type} {scan : Scan α} {value : α} {stop : Nat}
    {file : Option String} (h : scan.Reads source (file.getD Lexer.defaultFile) 0 value stop) :
    (scan.onSource source file).2 =
        some (value, .standing source (file.getD Lexer.defaultFile) stop) ∧
      ∀ request ∈ (scan.onSource source file).1, request.Granted source := by
  obtain ⟨hfirst, hgranted⟩ := readByte_ofString source file
  rw [onSource, bind_of_result hfirst]
  exact ⟨h.result_eq, List.forall_mem_append.mpr ⟨hgranted, h.granted⟩⟩

end Scan

/-- The tokens of a source are those that a lexer draws from its first byte on. -/
theorem tokenAt_eq (source : String) (file : Option String) (n : Nat) :
    tokenAt source file n = (Lexer.ofString source file).tokenAt n := by
  rw [tokenAt, tokenize, Lexer.tokens, Lexer.tokenAt]
  by_cases hlt : n < (Lexer.ofString source file).content.length
  · rw [List.getD_append _ _ _ _ hlt]
  · rw [List.getD_append_right _ _ _ _ (Nat.not_lt.mp hlt),
      List.getD_eq_default _ _ (Nat.not_lt.mp hlt)]
    cases n - (Lexer.ofString source file).content.length <;> rfl

/-- The number of bytes in the longest front of a text with characters of the run alone, if there
are any. -/
def findRun (run : Run) (text : String) : Option Nat :=
  match text.toList.takeWhile run.includes with
  | [] => none
  | c :: rest => some (String.ofList (c :: rest)).utf8ByteSize

theorem findRun_eq_some_iff {run : Run} {text : String} {length : Nat} :
    findRun run text = some length ↔
      text.toList.takeWhile run.includes ≠ [] ∧
        (String.ofList (text.toList.takeWhile run.includes)).utf8ByteSize = length := by
  unfold findRun
  split <;> simp_all

theorem findsRuns_findRun : FindsRuns findRun where
  isSome {run text c} hfirst hc := by
    obtain ⟨rest, htext⟩ := List.head?_eq_some_iff.mp hfirst
    refine Option.isSome_iff_exists.mpr ⟨_, findRun_eq_some_iff.mpr ⟨?_, rfl⟩⟩
    rw [htext, List.takeWhile_cons_of_pos hc]
    exact List.cons_ne_nil _ _
  front {run text length} h := by
    obtain ⟨-, hlength⟩ := findRun_eq_some_iff.mp h
    refine ⟨_, .ofList (text.toList.dropWhile run.includes), ?_, hlength, fun c hc => ?_⟩
    · rw [← String.ofList_append, List.takeWhile_append_dropWhile, String.ofList_toList]
    · rw [String.toList_ofList] at hc
      exact List.mem_takeWhile_imp hc
  longest {run front rest length} h hfront := by
    obtain ⟨-, rfl⟩ := findRun_eq_some_iff.mp h
    rw [String.toList_append, List.takeWhile_append_of_pos hfront, String.ofList_append,
      String.ofList_toList, String.utf8ByteSize_append]
    exact Nat.le_add_right _ _

/-- However many tokens are read from a source, the scanner is granted all that it asks for, and it
looks at the byte at its position, or at zero where the source ends. The next token takes it
further on, unless the input ends, which then is read again and again without a change. All tokens
of a source are read in no more rounds than it has bytes, and one. -/
theorem requests_of_source {find : Run → String → Option Nat} (hfind : FindsRuns find)
    (source : String) (file : Option String) (n : Nat) :
    let bytes := Utf8.encode source
    let reading := (Scan.nextTokens find n).onSource source file
    let whole := (Scan.allTokens find (bytes.length + 1)).onSource source file
    (∀ request ∈ reading.1, request.Granted source) ∧
      (∃ s, reading.2 = some ((List.range n).map (tokenAt source file), s) ∧
        s.source = source ∧ s.position ≤ bytes.length ∧
        s.readPosition = min (s.position + 1) bytes.length ∧
        s.current = bytes[s.position]?.getD 0 ∧
        ∃ after, (Scan.nextToken find s).2 = some (tokenAt source file n, after) ∧
          ((tokenAt source file n).kind ≠ .eof → s.position < after.position) ∧
          ((tokenAt source file n).kind = .eof → ∀ m,
            (Scan.nextTokens find m after).2 =
              some (List.replicate m (tokenAt source file n), after))) ∧
      (∀ request ∈ whole.1, request.Granted source) ∧
      ∃ last, whole.2 = some (tokenize source file, last) := by
  intro bytes reading whole
  have hsize : source.utf8ByteSize = bytes.length := (Utf8.length_encode source).symm
  obtain ⟨stop, hstop, hreads, hlater⟩ :=
    Scan.exists_reads_nextTokens hfind (file.getD Lexer.defaultFile) (Nat.zero_le _) n
  obtain ⟨after, -, hnext, -, hfurther⟩ :=
    Scan.exists_reads_nextToken hfind (file.getD Lexer.defaultFile) hstop
  have htoken : (Lexer.standing source (file.getD Lexer.defaultFile) stop).next.1 =
      tokenAt source file n := by
    rw [← Lexer.tokenAt_zero, hlater, Nat.add_zero, tokenAt_eq]
    rfl
  rw [htoken] at hnext hfurther
  have hlist : (List.range n).map (Lexer.standing source (file.getD Lexer.defaultFile) 0).tokenAt =
      (List.range n).map (tokenAt source file) :=
    List.map_congr_left fun k _ => (tokenAt_eq source file k).symm
  rw [hlist] at hreads
  obtain ⟨hresult, hgranted⟩ := Scan.onSource_of_reads hreads
  have hall : (Scan.allTokens find (bytes.length + 1)).Reads source
      (file.getD Lexer.defaultFile) 0 (tokenize source file) source.utf8ByteSize :=
    Scan.reads_allTokens hfind (Nat.zero_le _)
      (Nat.lt_succ_of_le (Lexer.length_content_le (.ofString source file)))
  obtain ⟨hwhole, hwholeGranted⟩ := Scan.onSource_of_reads hall
  refine ⟨hgranted, ⟨_, hresult, rfl, hsize ▸ hstop, hsize ▸ rfl, rfl, _, hnext.result_eq,
    fun hkind => ?_, fun hkind m => ?_⟩, hwholeGranted, _, hwhole⟩
  · exact (hfurther.resolve_right fun hend => hkind (hend.1 ▸ rfl)).2
  · obtain ⟨hend, rfl⟩ := hfurther.resolve_left fun hmore => hmore.1 hkind
    rw [hend]
    exact (Scan.reads_nextTokens_at_end m).result_eq

/-- Each byte of an accented letter is a token, and a zero byte does not pass for the end. A run is
asked for at the name. -/
theorem requests_of_accent :
    FindsRuns findRun ∧
      (tokenize "é!=x\x00" none).map (·.kind) =
        [.illegal, .illegal, .notEquals, .identifier, .illegal, .eof] ∧
      .run .word 4 (some 1) ∈ ((Scan.allTokens findRun 7).onSource "é!=x\x00" none).1 ∧
      ∀ request ∈ ((Scan.allTokens findRun 7).onSource "é!=x\x00" none).1,
        request.Granted "é!=x\x00" := by
  obtain ⟨-, -, hgranted, -⟩ := requests_of_source findsRuns_findRun "é!=x\x00" none 0
  exact ⟨findsRuns_findRun, by decide +kernel, by decide +kernel, hgranted⟩

end LetScript
