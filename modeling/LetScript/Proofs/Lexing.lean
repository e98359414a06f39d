import LetScript.Proofs.Relocation
import Mathlib.Data.List.Basic
import Mathlib.Data.List.TakeWhile

/-!
# The tokens that a lexer draws

A lexer that draws tokens one after the other comes to a place further on in its source: the bytes
of the tokens and of the separators between them lie behind it. Each token starts at the offset
that the lexer has come to once it has skipped the separators, so the tokens start at larger and
larger offsets. Drawing depends on nothing but the bytes that are left. Hence the same bytes
further on in a source give the same tokens at larger offsets, and bytes that end with a semicolon
give the same tokens whatever comes after them.
-/

namespace LetScript

namespace Kind

/-- The byte that a kind of token is written with, for the kinds of a single byte. -/
def byte? : Kind → Option UInt8
  | assignment => some 0x3d
  | not => some 0x21
  | plus => some 0x2b
  | dash => some 0x2d
  | star => some 0x2a
  | slash => some 0x2f
  | less => some 0x3c
  | greater => some 0x3e
  | comma => some 0x2c
  | semicolon => some 0x3b
  | openParen => some 0x28
  | closeParen => some 0x29
  | openCurly => some 0x7b
  | closeCurly => some 0x7d
  | _ => none

/-- A byte that is read as a token of the language is the one that its kind is written with. -/
theorem byte?_ofByte {byte : UInt8} (h : ofByte byte ≠ .illegal) :
    (ofByte byte).byte? = some byte := by
  by_contra hbyte
  have hne (other : UInt8) (hother : (ofByte other).byte? = some other) : byte ≠ other :=
    fun heq => hbyte (heq ▸ hother)
  apply h
  unfold ofByte
  iterate 14 rw [if_neg (hne _ rfl)]

theorem lt_of_byte? {kind : Kind} {byte : UInt8} (h : kind.byte? = some byte) : byte < 0x80 := by
  cases kind <;> first
    | contradiction
    | (obtain rfl := Option.some.inj h; decide)

theorem ofWord_ne (word : String) : ofWord word ≠ .semicolon := by
  unfold ofWord
  repeat' split
  all_goals exact Kind.noConfusion

end Kind

theorem lt_of_isSeparator {byte : UInt8} (h : isSeparator byte) : byte < 0x80 := by
  simp only [isSeparator, Bool.or_eq_true, decide_eq_true_eq] at h
  rcases h with ((rfl | rfl) | rfl) | rfl <;> decide

/-- A separator belongs neither to a word nor to an integer. -/
theorem neither_of_isSeparator {byte : UInt8} (h : isSeparator byte) :
    isWordByte byte = false ∧ isDigitByte byte = false := by
  simp only [isSeparator, Bool.or_eq_true, decide_eq_true_eq] at h
  rcases h with ((rfl | rfl) | rfl) | rfl <;> exact ⟨rfl, rfl⟩

theorem lt_of_isWordByte {byte : UInt8} (h : isWordByte byte) : byte < 0x80 := by
  simp only [isWordByte, Bool.or_eq_true, Bool.and_eq_true, decide_eq_true_eq,
    UInt8.le_iff_toNat_le, ← UInt8.toNat_inj] at h
  rw [UInt8.lt_iff_toNat_lt]
  simp at h ⊢
  omega

theorem lt_of_isDigitByte {byte : UInt8} (h : isDigitByte byte) : byte < 0x80 := by
  simp only [isDigitByte, Bool.and_eq_true, decide_eq_true_eq, UInt8.le_iff_toNat_le] at h
  rw [UInt8.lt_iff_toNat_lt]
  simp at h ⊢
  omega

section LongestToken

variable {byte : UInt8} {rest : List UInt8}

/-- The longest token is among the bytes. -/
theorem prefix_longestToken (byte : UInt8) (rest : List UInt8) :
    (longestToken byte rest).2 <+: byte :: rest := by
  have hpair {second : UInt8} (h : byte = second ∧ rest.head? = some 0x3d) :
      [second, 0x3d] <+: byte :: rest := by
    obtain ⟨rfl, hhead⟩ := h
    obtain ⟨tail, rfl⟩ := List.head?_eq_some_iff.mp hhead
    exact ⟨tail, rfl⟩
  unfold longestToken
  split
  · exact (List.prefix_cons_inj byte).mpr (List.takeWhile_prefix _)
  · split
    · exact (List.prefix_cons_inj byte).mpr (List.takeWhile_prefix _)
    · split
      · exact hpair ‹_›
      · split
        · exact hpair ‹_›
        · exact ⟨rest, rfl⟩

/-- All tokens of the language are written in ASCII. -/
theorem lt_of_mem_longestToken (h : (longestToken byte rest).1 ≠ .illegal) :
    ∀ other ∈ (longestToken byte rest).2, other < 0x80 := by
  intro other hmem
  unfold longestToken at h hmem
  split at hmem
  · rcases List.mem_cons.mp hmem with rfl | hmem
    · exact lt_of_isWordByte ‹_›
    · exact lt_of_isWordByte (List.mem_takeWhile_imp hmem)
  · rw [if_neg ‹_›] at h
    split at hmem
    · rcases List.mem_cons.mp hmem with rfl | hmem
      · exact lt_of_isDigitByte ‹_›
      · exact lt_of_isDigitByte (List.mem_takeWhile_imp hmem)
    · rw [if_neg ‹_›] at h
      split at hmem
      · rcases List.mem_pair.mp hmem with rfl | rfl <;> decide
      · rw [if_neg ‹_›] at h
        split at hmem
        · rcases List.mem_pair.mp hmem with rfl | rfl <;> decide
        · rw [if_neg ‹_›] at h
          obtain rfl := List.mem_singleton.mp hmem
          exact Kind.lt_of_byte? (Kind.byte?_ofByte h)

/-- A token that ends before the bytes do does not depend on what comes after them. -/
theorem longestToken_append {more : List UInt8}
    (h : (longestToken byte rest).2.length < (byte :: rest).length) :
    longestToken byte (rest ++ more) = longestToken byte rest := by
  have hrun {test : UInt8 → Bool} (hlt : (byte :: rest.takeWhile test).length < rest.length + 1) :
      (rest ++ more).takeWhile test = rest.takeWhile test := by
    rw [List.takeWhile_append, if_neg]
    rw [List.length_cons] at hlt
    omega
  have hhead (hlt : 0 < rest.length) : (rest ++ more).head? = rest.head? :=
    List.head?_append_of_ne_nil rest (List.length_pos_iff.mp hlt)
  rw [List.length_cons] at h
  unfold longestToken at h ⊢
  split
  · rw [if_pos ‹_›] at h
    rw [hrun h]
  · rw [if_neg ‹_›] at h
    split
    · rw [if_pos ‹_›] at h
      rw [hrun h]
    · rw [if_neg ‹_›] at h
      have hlt : 0 < rest.length := by
        split at h
        · exact Nat.lt_of_succ_lt_succ (Nat.lt_of_succ_lt h)
        · split at h
          · exact Nat.lt_of_succ_lt_succ (Nat.lt_of_succ_lt h)
          · exact Nat.lt_of_succ_lt_succ h
      rw [hhead hlt]

/-- A separator ends every token. -/
theorem longestToken_append_separator {separator : UInt8} {more : List UInt8}
    (h : isSeparator separator) :
    longestToken byte (rest ++ separator :: more) = longestToken byte rest := by
  obtain ⟨hword, hdigit⟩ := neither_of_isSeparator h
  have hrun {test : UInt8 → Bool} (htest : test separator = false) :
      (rest ++ separator :: more).takeWhile test = rest.takeWhile test := by
    rw [List.takeWhile_append]
    split
    · rename_i hall
      have hnone : (separator :: more).takeWhile test = [] :=
        List.takeWhile_cons_of_neg (by simp [htest])
      rw [hnone, List.append_nil]
      exact ((List.takeWhile_prefix test).eq_of_length hall).symm
    · rfl
  have hhead : (rest ++ separator :: more).head? = some 0x3d ↔ rest.head? = some 0x3d := by
    cases rest with
    | nil =>
      refine iff_of_false (fun heq => ?_) (by simp)
      obtain rfl : separator = 0x3d := by simpa using heq
      contradiction
    | cons byte rest => rfl
  simp only [longestToken, hrun hword, hrun hdigit, hhead]

/-- Whatever comes after it, a semicolon is a token on its own. -/
theorem longestToken_semicolon (rest : List UInt8) :
    longestToken 0x3b rest = (.semicolon, [0x3b]) :=
  rfl

/-- Only the semicolon is read as one. -/
theorem eq_of_longestToken_semicolon (h : (longestToken byte rest).1 = .semicolon) :
    byte = 0x3b := by
  unfold longestToken at h
  split at h
  · exact absurd h (Kind.ofWord_ne _)
  · split at h
    · contradiction
    · split at h
      · contradiction
      · split at h
        · contradiction
        · have hbyte : (Kind.ofByte byte).byte? = some byte := Kind.byte?_ofByte (by simp_all)
          exact (Option.some.inj ((congrArg Kind.byte? h).symm.trans hbyte)).symm

/-- No other token contains a semicolon. -/
theorem eq_of_mem_longestToken (h : 0x3b ∈ (longestToken byte rest).2) : byte = 0x3b := by
  unfold longestToken at h
  split at h
  · rcases List.mem_cons.mp h with heq | hmem
    · exact heq.symm
    · exact absurd (List.mem_takeWhile_imp hmem) (by decide)
  · split at h
    · rcases List.mem_cons.mp h with heq | hmem
      · exact heq.symm
      · exact absurd (List.mem_takeWhile_imp hmem) (by decide)
    · split at h
      · exact absurd h (by decide)
      · split at h
        · exact absurd h (by decide)
        · exact (List.mem_singleton.mp h).symm

end LongestToken

namespace Lexer

/-- The second lexer stands after some more bytes of the same source. -/
structure Passes (lexer : Lexer) (bytes : List UInt8) (after : Lexer) : Prop where
  rest_eq : lexer.rest = bytes ++ after.rest
  offset_eq : after.offset = lexer.offset + bytes.length
  file_eq : after.file = lexer.file

namespace Passes

theorem refl (lexer : Lexer) : lexer.Passes [] lexer := ⟨rfl, rfl, rfl⟩

theorem trans {first second third : Lexer} {bytes more : List UInt8}
    (h : first.Passes bytes second) (hmore : second.Passes more third) :
    first.Passes (bytes ++ more) third where
  rest_eq := by rw [h.rest_eq, hmore.rest_eq, List.append_assoc]
  offset_eq := by rw [hmore.offset_eq, h.offset_eq, List.length_append, Nat.add_assoc]
  file_eq := hmore.file_eq.trans h.file_eq

/-- The place after the last byte is the same for both. -/
theorem toEnd_eq {lexer after : Lexer} {bytes : List UInt8} (h : lexer.Passes bytes after) :
    after.toEnd = lexer.toEnd := by
  simp only [toEnd, skip, h.file_eq, h.offset_eq, h.rest_eq, List.drop_length,
    Nat.add_assoc, ← List.length_append]

/-- No more than all of the bytes are passed. -/
theorem offset_le {lexer after : Lexer} {bytes : List UInt8} (h : lexer.Passes bytes after) :
    after.offset ≤ lexer.toEnd.offset := by
  have hlength := congrArg List.length h.rest_eq
  rw [List.length_append] at hlength
  simp only [toEnd, skip, h.offset_eq]
  omega

end Passes

theorem passes_skip {lexer : Lexer} {bytes rest : List UInt8} (h : lexer.rest = bytes ++ rest) :
    lexer.Passes bytes (lexer.skip bytes.length) :=
  ⟨by simp [skip, h], rfl, rfl⟩

theorem passes_skipSeparators (lexer : Lexer) :
    lexer.Passes (lexer.rest.takeWhile isSeparator) lexer.skipSeparators :=
  passes_skip (List.takeWhile_append_dropWhile (p := isSeparator) (l := lexer.rest)).symm

/-- What it means that a token is drawn: it is the longest one at the next byte that is no
separator. -/
theorem next?_eq_some_iff {lexer after : Lexer} {token : Token} :
    lexer.next? = some (token, after) ↔
      ∃ byte rest, lexer.skipSeparators.rest = byte :: rest ∧
        token = ⟨(longestToken byte rest).1, latinText (longestToken byte rest).2,
          .ofLength lexer.skipSeparators.offset (longestToken byte rest).2.length lexer.file⟩ ∧
        after = lexer.skipSeparators.skip (longestToken byte rest).2.length := by
  unfold next?
  dsimp only
  split
  · simp_all
  · rename_i byte rest hrest
    constructor
    · intro h
      obtain ⟨htoken, hafter⟩ := Prod.mk.inj (Option.some.inj h)
      exact ⟨byte, rest, hrest, htoken.symm, hafter.symm⟩
    · rintro ⟨other, others, hother, rfl, rfl⟩
      obtain ⟨rfl, rfl⟩ := List.cons.inj (hrest.symm.trans hother)
      rfl

theorem next?_eq_none_iff {lexer : Lexer} :
    lexer.next? = none ↔ lexer.skipSeparators.rest = [] := by
  unfold next?
  dsimp only
  split <;> simp_all

/-- No token is drawn where nothing is left. -/
theorem next?_of_rest_eq_nil {lexer : Lexer} (h : lexer.rest = []) : lexer.next? = none := by
  rw [next?_eq_none_iff, skipSeparators, h]
  exact List.drop_eq_nil_of_le (by simp [h])

/-- A token that is drawn covers the bytes that are passed after the separators. -/
theorem passes_of_next? {lexer after : Lexer} {token : Token}
    (h : lexer.next? = some (token, after)) :
    ∃ bytes, lexer.skipSeparators.Passes bytes after ∧ bytes ≠ [] ∧
      token.span = .ofLength lexer.skipSeparators.offset bytes.length lexer.file ∧
      (token.kind ≠ .illegal → ∀ byte ∈ bytes, byte < 0x80) ∧
      (0x3b ∈ bytes → token.kind = .semicolon) := by
  obtain ⟨byte, rest, hrest, rfl, rfl⟩ := next?_eq_some_iff.mp h
  obtain ⟨tail, htail⟩ := prefix_longestToken byte rest
  refine ⟨(longestToken byte rest).2, passes_skip (hrest.trans htail.symm), longestToken_ne_nil _ _,
    rfl, lt_of_mem_longestToken, fun hmem => ?_⟩
  obtain rfl := eq_of_mem_longestToken hmem
  rw [longestToken_semicolon]

/-- A token starts where the separators end, and the lexer comes to a place further on. -/
theorem start_of_next? {lexer after : Lexer} {token : Token}
    (h : lexer.next? = some (token, after)) :
    token.position = .atOffset lexer.skipSeparators.offset lexer.file ∧
      after.file = lexer.file ∧ lexer.offset ≤ lexer.skipSeparators.offset ∧
      lexer.skipSeparators.offset < after.offset ∧ after.toEnd = lexer.toEnd := by
  obtain ⟨bytes, hbytes, hne, hspan, -, -⟩ := passes_of_next? h
  have hpasses := (passes_skipSeparators lexer).trans hbytes
  have hpos := List.length_pos_iff.mpr hne
  refine ⟨congrArg Span.start hspan, hpasses.file_eq, Nat.le_add_right _ _, ?_, hpasses.toEnd_eq⟩
  rw [hbytes.offset_eq]
  omega

/-- The second lexer comes from the first by drawing the tokens. -/
inductive Draws : Lexer → List Token → Lexer → Prop where
  | nil (lexer : Lexer) : Draws lexer [] lexer
  | cons {lexer after stop : Lexer} {token : Token} {tokens : List Token} :
      lexer.next? = some (token, after) → Draws after tokens stop →
        Draws lexer (token :: tokens) stop

/-- The tokens of a source can be drawn in part. -/
theorem exists_draws {lexer : Lexer} {tokens rest : List Token}
    (h : lexer.content = tokens ++ rest) :
    ∃ stop, lexer.Draws tokens stop ∧ stop.content = rest := by
  induction tokens generalizing lexer with
  | nil => exact ⟨lexer, .nil lexer, h⟩
  | cons token tokens ih =>
    cases hnext : lexer.next? with
    | none =>
      rw [content_of_next?_eq_none hnext] at h
      contradiction
    | some drawn =>
      rw [content_of_next? hnext] at h
      obtain ⟨rfl, hrest⟩ := List.cons.inj h
      obtain ⟨stop, hdraws, hstop⟩ := ih hrest
      exact ⟨stop, .cons hnext hdraws, hstop⟩

/-- The tokens of a source start at larger and larger offsets. -/
theorem exists_offsets (lexer : Lexer) :
    ∃ offsets : List Nat,
      lexer.content.map Token.position = offsets.map (.atOffset · lexer.file) ∧
      offsets.Pairwise (· < ·) ∧
      ∀ offset ∈ offsets, lexer.offset ≤ offset ∧ offset < lexer.toEnd.offset := by
  fun_induction content lexer with
  | case1 => exact ⟨[], rfl, .nil, List.forall_mem_nil _⟩
  | case2 lexer token after hnext _ ih =>
    obtain ⟨offsets, hpositions, hincreasing, hbounds⟩ := ih
    obtain ⟨hspan, hfile, hle, hlt, hend⟩ := start_of_next? hnext
    refine ⟨lexer.skipSeparators.offset :: offsets, ?_, ?_, ?_⟩
    · rw [List.map_cons, List.map_cons, hpositions, hspan, hfile]
    · refine List.pairwise_cons.mpr ⟨fun offset hmem => ?_, hincreasing⟩
      exact Nat.lt_of_lt_of_le hlt (hbounds offset hmem).1
    · refine List.forall_mem_cons.mpr ⟨⟨hle, ?_⟩, fun offset hmem => ?_⟩
      · exact Nat.lt_of_lt_of_le hlt (hend ▸ Nat.le_add_right _ _)
      · obtain ⟨hafter, hbound⟩ := hbounds offset hmem
        exact ⟨by omega, hend ▸ hbound⟩

namespace Draws

variable {lexer stop : Lexer} {tokens : List Token}

/-- After the tokens that are drawn the others are left. -/
theorem content_eq (h : lexer.Draws tokens stop) : lexer.content = tokens ++ stop.content := by
  induction h with
  | nil => rfl
  | cons hnext _ ih => rw [content_of_next? hnext, ih, List.cons_append]

theorem split {more : List Token} (h : lexer.Draws (tokens ++ more) stop) :
    ∃ between, lexer.Draws tokens between ∧ between.Draws more stop := by
  induction tokens generalizing lexer with
  | nil => exact ⟨lexer, .nil lexer, h⟩
  | cons token tokens ih =>
    cases h with
    | cons hnext hrest =>
      obtain ⟨between, htokens, hmore⟩ := ih hrest
      exact ⟨between, .cons hnext htokens, hmore⟩

/-- Tokens that are drawn are passed, with the separators before them. -/
theorem exists_passes (h : lexer.Draws tokens stop) : ∃ bytes, lexer.Passes bytes stop := by
  induction h with
  | nil lexer => exact ⟨[], .refl lexer⟩
  | cons hnext _ ih =>
    obtain ⟨bytes, hbytes, -⟩ := passes_of_next? hnext
    obtain ⟨more, hmore⟩ := ih
    exact ⟨_, ((passes_skipSeparators _).trans hbytes).trans hmore⟩

theorem offset_le (h : lexer.Draws tokens stop) : lexer.offset ≤ stop.offset := by
  obtain ⟨bytes, hpasses⟩ := h.exists_passes
  rw [hpasses.offset_eq]
  exact Nat.le_add_right _ _

/-- A token of the language leaves the lexer right after an ASCII character. -/
theorem exists_passes_of_legal {token : Token} (h : lexer.Draws (tokens ++ [token]) stop)
    (hlegal : token.kind ≠ .illegal) :
    ∃ bytes byte, lexer.Passes (bytes ++ [byte]) stop ∧ byte < 0x80 := by
  obtain ⟨between, htokens, hlast⟩ := h.split
  cases hlast with
  | cons hnext hnil =>
    cases hnil
    obtain ⟨before, hbefore⟩ := htokens.exists_passes
    obtain ⟨bytes, hbytes, hne, -, hascii, -⟩ := passes_of_next? hnext
    obtain ⟨init, byte, rfl⟩ := (List.eq_nil_or_concat' bytes).resolve_left hne
    have hpasses := (hbefore.trans (passes_skipSeparators between)).trans hbytes
    rw [← List.append_assoc] at hpasses
    exact ⟨_, byte, hpasses, hascii hlegal byte (by simp)⟩

end Draws

/-- Separators are skipped once. -/
theorem skipSeparators_skipSeparators (lexer : Lexer) :
    lexer.skipSeparators.skipSeparators = lexer.skipSeparators := by
  have hrest : lexer.skipSeparators.rest = lexer.rest.dropWhile isSeparator := by
    refine List.append_cancel_left ((passes_skipSeparators lexer).rest_eq.symm.trans ?_)
    exact List.takeWhile_append_dropWhile.symm
  have hnone : lexer.skipSeparators.rest.takeWhile isSeparator = [] := by
    rw [hrest]
    exact List.takeWhile_eq_nil_iff.mpr fun hpos => List.dropWhile_get_zero_not _ _ hpos
  rw [skipSeparators.eq_def lexer.skipSeparators, hnone]
  rfl

theorem content_skipSeparators (lexer : Lexer) : lexer.skipSeparators.content = lexer.content := by
  have hnext : lexer.skipSeparators.next? = lexer.next? := by
    simp only [next?, skipSeparators_skipSeparators]
  cases hdrawn : lexer.next? with
  | none => rw [content_of_next?_eq_none hdrawn, content_of_next?_eq_none (hnext.trans hdrawn)]
  | some drawn => rw [content_of_next? hdrawn, content_of_next? (hnext.trans hdrawn)]

/-- The same place in a source that starts `count` bytes further on. -/
def moved (lexer : Lexer) (count : Nat) : Lexer := { lexer with offset := lexer.offset + count }

section Moved

variable {lexer : Lexer} {count : Nat} {f : Position → Position}

theorem skip_moved (n : Nat) : (lexer.moved count).skip n = (lexer.skip n).moved count := by
  simp only [moved, skip, Nat.add_right_comm]

/-- The same tokens are drawn further on. -/
theorem next?_moved {after : Lexer} {token : Token}
    (hf : ∀ offset ≤ lexer.toEnd.offset,
      f (.atOffset offset lexer.file) = .atOffset (offset + count) lexer.file)
    (h : lexer.next? = some (token, after)) :
    (lexer.moved count).next? = some (token.relocate (.ofPosition f), after.moved count) := by
  have hseparators : (lexer.moved count).skipSeparators = lexer.skipSeparators.moved count :=
    skip_moved _
  obtain ⟨bytes, hbytes, -, hspan, -⟩ := passes_of_next? h
  have hstart := hf _ (passes_skipSeparators lexer).offset_le
  have hstop := hf _ ((passes_skipSeparators lexer).trans hbytes).offset_le
  obtain ⟨byte, rest, hrest, rfl, rfl⟩ := next?_eq_some_iff.mp h
  refine next?_eq_some_iff.mpr ⟨byte, rest, by rw [hseparators]; exact hrest, ?_, ?_⟩
  · rw [hseparators]
    simp only [Token.relocate, Relocation.ofPosition, Span.ofLength, Token.mk.injEq, Span.mk.injEq,
      true_and, hstart]
    have hlast : lexer.skipSeparators.offset + count + (longestToken byte rest).2.length =
        lexer.skipSeparators.offset + (longestToken byte rest).2.length + count :=
      Nat.add_right_comm _ _ _
    exact ⟨rfl, hstop.trans (congrArg (Position.atOffset · lexer.file) hlast.symm)⟩
  · rw [hseparators, skip_moved]

theorem content_moved
    (hf : ∀ offset ≤ lexer.toEnd.offset,
      f (.atOffset offset lexer.file) = .atOffset (offset + count) lexer.file) :
    (lexer.moved count).content = lexer.content.map (Token.relocate (.ofPosition f)) := by
  fun_induction content lexer with
  | case1 lexer hnext =>
    have hnone : (lexer.moved count).next? = none := by
      rw [next?_eq_none_iff] at hnext ⊢
      exact (congrArg rest (skip_moved _)).trans hnext
    rw [content_of_next?_eq_none hnone]
    rfl
  | case2 lexer token after hnext _ ih =>
    obtain ⟨bytes, hbytes, -⟩ := passes_of_next? hnext
    have hpasses := (passes_skipSeparators lexer).trans hbytes
    have hafter := ih (by rwa [hpasses.toEnd_eq, hpasses.file_eq])
    rw [content_of_next? (next?_moved hf hnext), hafter, List.map_cons]

theorem finish_moved
    (hf : ∀ offset ≤ lexer.toEnd.offset,
      f (.atOffset offset lexer.file) = .atOffset (offset + count) lexer.file) :
    (lexer.moved count).finish = f lexer.finish := by
  rw [finish, finish, hf _ (Nat.le_refl _), toEnd, toEnd]
  congr 1
  exact Nat.add_right_comm _ _ _

end Moved

/-- The same place in a source that goes on with `more`. -/
def followed (lexer : Lexer) (more : List UInt8) : Lexer :=
  { lexer with rest := lexer.rest ++ more }

section Followed

variable {lexer after : Lexer} {token : Token}

theorem skipSeparators_followed (hrest : lexer.skipSeparators.rest ≠ []) (more : List UInt8) :
    (lexer.followed more).skipSeparators = lexer.skipSeparators.followed more := by
  have hseparators : (lexer.rest ++ more).takeWhile isSeparator =
      lexer.rest.takeWhile isSeparator := by
    rw [List.takeWhile_append, if_neg]
    intro hlength
    have hpasses := congrArg List.length (passes_skipSeparators lexer).rest_eq
    rw [List.length_append, hlength] at hpasses
    exact hrest (List.length_eq_zero_iff.mp (by omega))
  simp only [skipSeparators, followed, hseparators, skip, Lexer.mk.injEq, true_and]
  exact List.drop_append_of_le_length (List.takeWhile_prefix _).length_le

/-- What comes after the bytes does not matter for a token that does not go on with it. -/
theorem next?_followed_of_eq {more : List UInt8} (h : lexer.next? = some (token, after))
    (hlongest : ∀ byte rest, lexer.skipSeparators.rest = byte :: rest →
      longestToken byte (rest ++ more) = longestToken byte rest) :
    (lexer.followed more).next? = some (token, after.followed more) := by
  obtain ⟨byte, rest, hstart, rfl, rfl⟩ := next?_eq_some_iff.mp h
  have hseparators := skipSeparators_followed (hstart ▸ List.cons_ne_nil byte rest) more
  have hle := (prefix_longestToken byte rest).length_le
  have hlongest := hlongest byte rest hstart
  refine next?_eq_some_iff.mpr ⟨byte, rest ++ more, ?_, ?_, ?_⟩
  · rw [hseparators, followed, hstart, List.cons_append]
  · rw [hseparators, hlongest]
    rfl
  · rw [hseparators, hlongest]
    simp only [followed, skip, hstart, Lexer.mk.injEq, true_and]
    rw [List.drop_append_of_le_length hle]

/-- So it is for a token that ends before the bytes do, and for a semicolon. -/
theorem next?_followed (h : lexer.next? = some (token, after))
    (hrest : after.rest ≠ [] ∨ token.kind = .semicolon) (more : List UInt8) :
    (lexer.followed more).next? = some (token, after.followed more) := by
  refine next?_followed_of_eq h fun byte rest hstart => ?_
  obtain ⟨other, others, hother, rfl, rfl⟩ := next?_eq_some_iff.mp h
  obtain ⟨rfl, rfl⟩ := List.cons.inj (hother.symm.trans hstart)
  rcases hrest with hleft | hsemicolon
  · refine longestToken_append ?_
    have hlength := List.length_pos_iff.mpr hleft
    have hle := (prefix_longestToken other others).length_le
    rw [length_rest_skip, hother] at hlength
    omega
  · obtain rfl := eq_of_longestToken_semicolon hsemicolon
    rw [longestToken_semicolon, longestToken_semicolon]

/-- Bytes that end with a semicolon give the same tokens, the last of which is this semicolon,
whatever comes after them. -/
theorem content_followed (h : lexer.rest.getLast? = some 0x3b) (more : List UInt8) :
    ∃ init semicolon, lexer.content = init ++ [semicolon] ∧ semicolon.kind = .semicolon ∧
      (lexer.followed more).content = lexer.content ++ (lexer.toEnd.followed more).content := by
  fun_induction content lexer with
  | case1 lexer hnext =>
    have hall := (passes_skipSeparators lexer).rest_eq
    rw [next?_eq_none_iff.mp hnext, List.append_nil] at hall
    have hmem := List.mem_of_getLast? h
    rw [hall] at hmem
    exact absurd (List.mem_takeWhile_imp hmem) (by decide)
  | case2 lexer token after hnext _ ih =>
    obtain ⟨bytes, hbytes, hne, -, -, hends⟩ := passes_of_next? hnext
    have hpasses := (passes_skipSeparators lexer).trans hbytes
    rw [← hpasses.toEnd_eq]
    by_cases hleft : after.rest = []
    · -- The token ends with the bytes, so it contains their semicolon.
      have hlast : bytes.getLast? = some 0x3b := by
        rw [hpasses.rest_eq, hleft, List.append_nil, List.getLast?_append_of_ne_nil _ hne] at h
        exact h
      have hkind := hends (List.mem_of_getLast? hlast)
      have hend : after.toEnd = after := by
        rw [toEnd, hleft, List.length_nil]
        exact congrArg (Lexer.mk _ _) (List.drop_zero)
      have hnone : after.content = [] := content_of_next?_eq_none (next?_of_rest_eq_nil hleft)
      refine ⟨[], token, by rw [hnone, List.nil_append], hkind, ?_⟩
      rw [content_of_next? (next?_followed hnext (.inr hkind) more), hnone, hend]
      rfl
    · have hlast : after.rest.getLast? = some 0x3b := by
        rw [hpasses.rest_eq, List.getLast?_append_of_ne_nil _ hleft] at h
        exact h
      obtain ⟨init, semicolon, hcontent, hkind, hfollowed⟩ := ih hlast
      refine ⟨token :: init, semicolon, ?_, hkind, ?_⟩
      · rw [hcontent, List.cons_append]
      · rw [content_of_next? (next?_followed hnext (.inl hleft) more), hfollowed, List.cons_append]

/-- Separators before the bytes change nothing. -/
theorem content_of_separators {separators rest : List UInt8}
    (hseparators : ∀ byte ∈ separators, isSeparator byte) (h : lexer.rest = separators ++ rest) :
    lexer.content = (lexer.skip separators.length).content := by
  have hskip : lexer.skipSeparators = (lexer.skip separators.length).skipSeparators := by
    simp only [skipSeparators, skip, h, List.drop_left', List.takeWhile_append_of_pos hseparators,
      List.length_append, List.drop_append, Lexer.mk.injEq, true_and]
    simp only [Nat.add_assoc, true_and, Nat.add_sub_cancel_left]
    exact List.append_left_eq_self.mpr (List.drop_of_length_le (Nat.le_add_right _ _))
  rw [← content_skipSeparators, hskip, content_skipSeparators]

/-- Where no token is left, what comes after the bytes is all that counts. -/
theorem content_followed_of_next?_eq_none (hnext : lexer.next? = none) (more : List UInt8) :
    (lexer.followed more).content = (lexer.toEnd.followed more).content := by
  have hall := (passes_skipSeparators lexer).rest_eq
  rw [next?_eq_none_iff.mp hnext, List.append_nil] at hall
  have hseparators : ∀ byte ∈ lexer.rest, isSeparator byte := by
    rw [hall]
    exact fun byte => List.mem_takeWhile_imp
  rw [content_of_separators hseparators rfl]
  simp [followed, skip, toEnd]

/-- Bytes give the same tokens whatever comes after them, if a separator comes first. -/
theorem content_followed_of_separator (lexer : Lexer) {separator : UInt8} (more : List UInt8)
    (hseparator : isSeparator separator) :
    (lexer.followed (separator :: more)).content =
      lexer.content ++ (lexer.toEnd.followed (separator :: more)).content := by
  fun_induction content lexer with
  | case1 lexer hnext => exact content_followed_of_next?_eq_none hnext _
  | case2 lexer token after hnext _ ih =>
    obtain ⟨bytes, hbytes, -⟩ := passes_of_next? hnext
    have hpasses := (passes_skipSeparators lexer).trans hbytes
    rw [← hpasses.toEnd_eq, List.cons_append, ← ih]
    exact content_of_next? (next?_followed_of_eq hnext fun byte rest _ =>
      longestToken_append_separator hseparator)

end Followed

end Lexer

end LetScript
