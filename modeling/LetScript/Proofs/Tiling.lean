import LetScript.Proofs.Spelling

/-!
# The tokens tile their source

Every byte of a source is covered by exactly one token, but for the separators, which lie between
the tokens. A token is spelled as the bytes that it covers, or it is the single byte that starts no
token; and it is never followed by a byte that it would have absorbed.

These conditions speak of the list of tokens and of the bytes alone, not of how a lexer comes to
them. They leave no choice: the first token starts at the first byte that is no separator, it is
the longest one there, and the same holds of the tokens after it.
-/

namespace LetScript

/-- The token covers the byte at `index` of its source. -/
def Token.Covers (token : Token) (index : Nat) : Prop :=
  token.span.start.offset ≤ index ∧ index < token.span.stop.offset

instance (token : Token) (index : Nat) : Decidable (token.Covers index) :=
  inferInstanceAs (Decidable (_ ∧ _))

/-- No token of the language starts with this byte. -/
def StartsNone (byte : UInt8) : Prop :=
  ∀ (kind : Kind) (text : String), kind.Spells text → (Utf8.encode text).head? ≠ some byte

/-- What the token says of itself holds of the bytes of the source called `file`. -/
structure Token.Fits (bytes : List UInt8) (file : String) (token : Token) : Prop where
  start_file : token.span.start.file = file
  stop_file : token.span.stop.file = file
  start_lt_stop : token.span.start.offset < token.span.stop.offset
  stop_le : token.span.stop.offset ≤ bytes.length
  /-- The bytes spell the token, or they are a single one that starts no token. -/
  read :
    (token.kind.Spells token.literal ∧
      bytes.extract token.span.start.offset token.span.stop.offset = Utf8.encode token.literal) ∨
    (token.kind = .illegal ∧ ∃ byte, StartsNone byte ∧ token.literal = latinText [byte] ∧
      bytes.extract token.span.start.offset token.span.stop.offset = [byte])
  /-- The token could not be longer. -/
  longest : ∀ byte, bytes[token.span.stop.offset]? = some byte → token.kind.absorbs byte = false

/-- The tokens cover the bytes from `start` on, one after the other. -/
structure Tiles (bytes : List UInt8) (file : String) (start : Nat) (tokens : List Token) :
    Prop where
  fits : ∀ token ∈ tokens, token.Fits bytes file
  start_le : ∀ token ∈ tokens, start ≤ token.span.start.offset
  ordered : tokens.Pairwise fun first second => first.span.stop.offset ≤ second.span.start.offset
  /-- A separator lies outside all tokens, every other byte in exactly one. -/
  covered : ∀ index byte, start ≤ index → bytes[index]? = some byte →
    tokens.countP (fun token => token.Covers index) = if isSeparator byte then 0 else 1

namespace Kind

/-- A word goes on with letters and underscores, whether it is a keyword or not. -/
theorem absorbs_ofWord (word : String) : (ofWord word).absorbs = isWordByte := by
  unfold ofWord
  repeat' split
  all_goals rfl

/-- Where no second `=` comes, the byte is the whole token. -/
theorem absorbs_ofByte {byte other : UInt8} {rest : List UInt8}
    (hequals : ¬ (byte = 0x3d ∧ rest.head? = some 0x3d))
    (hnotEquals : ¬ (byte = 0x21 ∧ rest.head? = some 0x3d)) (hother : other ∈ rest.head?) :
    (ofByte byte).absorbs other = false := by
  have hne (hone : byte = 0x3d ∨ byte = 0x21) : other ≠ 0x3d := by
    rintro rfl
    exact hone.elim (fun heq => hequals ⟨heq, hother⟩) fun heq => hnotEquals ⟨heq, hother⟩
  by_cases hkind : ofByte byte = .illegal
  · rw [hkind]
    rfl
  · have hbyte := byte?_ofByte hkind
    generalize ofByte byte = kind at hbyte
    cases kind with
    | assignment => exact decide_eq_false (hne (.inl (Option.some.inj hbyte).symm))
    | not => exact decide_eq_false (hne (.inr (Option.some.inj hbyte).symm))
    | _ => first | rfl | contradiction

end Kind

section LongestToken

variable {byte : UInt8} {rest : List UInt8}

/-- Whether a byte starts a token of the language does not depend on what comes after it. -/
theorem longestToken_illegal_iff :
    (longestToken byte rest).1 = .illegal ↔
      ¬ isWordByte byte ∧ ¬ isDigitByte byte ∧ Kind.ofByte byte = .illegal := by
  have hword (word : String) : Kind.ofWord word ≠ .illegal := by
    unfold Kind.ofWord
    repeat' split
    all_goals exact Kind.noConfusion
  unfold longestToken
  split
  · simp [hword, ‹isWordByte byte = true›]
  · split
    · simp [*]
    · split
      · rename_i hequals
        simp [hequals.1, Kind.ofByte]
      · split
        · rename_i hequals
          simp [hequals.1, Kind.ofByte]
        · simp [*]

/-- A byte that starts no token is taken on its own. -/
theorem longestToken_of_illegal (h : (longestToken byte rest).1 = .illegal) :
    longestToken byte rest = (.illegal, [byte]) := by
  obtain ⟨hword, hdigit, hbyte⟩ := longestToken_illegal_iff.mp h
  have hne (other : UInt8) (hother : Kind.ofByte other ≠ .illegal) : byte ≠ other :=
    fun heq => hother (heq ▸ hbyte)
  rw [longestToken, if_neg hword, if_neg hdigit, if_neg fun h => hne 0x3d (by decide) h.1,
    if_neg fun h => hne 0x21 (by decide) h.1, hbyte]

/-- The text of a token of the language has the bytes that it was read from. -/
theorem encode_latinText_longestToken (h : (longestToken byte rest).1 ≠ .illegal) :
    Utf8.encode (latinText (longestToken byte rest).2) = (longestToken byte rest).2 :=
  encode_latinText (lt_of_mem_longestToken h)

/-- What comes after the longest token does not belong to it. -/
theorem absorbs_longestToken {after : List UInt8}
    (h : byte :: rest = (longestToken byte rest).2 ++ after) :
    ∀ other ∈ after.head?, (longestToken byte rest).1.absorbs other = false := by
  intro other hother
  have hrun {test : UInt8 → Bool} (hsplit : rest = rest.takeWhile test ++ after) :
      test other = false := by
    have hafter : after = rest.dropWhile test :=
      List.append_cancel_left (hsplit.symm.trans List.takeWhile_append_dropWhile.symm)
    rw [hafter] at hother
    simpa [Option.mem_def.mp hother] using List.head?_dropWhile_not test rest
  unfold longestToken at h ⊢
  split
  · rw [if_pos ‹_›] at h
    rw [Kind.absorbs_ofWord]
    exact hrun (List.cons.inj h).2
  · rw [if_neg ‹_›] at h
    split
    · rw [if_pos ‹_›] at h
      exact hrun (List.cons.inj h).2
    · rw [if_neg ‹_›] at h
      split
      · rfl
      · rw [if_neg ‹_›] at h
        split
        · rfl
        · rw [if_neg ‹_›] at h
          obtain rfl : rest = after := (List.cons.inj h).2
          exact Kind.absorbs_ofByte ‹_› ‹_› hother

/-- No separator is a part of a token. -/
theorem isSeparator_of_mem_longestToken (hbyte : isSeparator byte = false) :
    ∀ other ∈ (longestToken byte rest).2, isSeparator other = false := by
  have hclass {test : UInt8 → Bool} (htest : ∀ other, isSeparator other → test other = false)
      (other : UInt8) (hmem : other ∈ byte :: rest.takeWhile test) : isSeparator other = false := by
    rcases List.mem_cons.mp hmem with rfl | hmem
    · exact hbyte
    · by_contra hseparator
      rw [Bool.not_eq_false] at hseparator
      exact absurd (List.mem_takeWhile_imp hmem) (by simp [htest other hseparator])
  unfold longestToken
  split
  · exact hclass fun other hother => (neither_of_isSeparator hother).1
  · split
    · exact hclass fun other hother => (neither_of_isSeparator hother).2
    · split
      · exact List.forall_mem_cons.mpr ⟨rfl, List.forall_mem_singleton.mpr rfl⟩
      · split
        · exact List.forall_mem_cons.mpr ⟨rfl, List.forall_mem_singleton.mpr rfl⟩
        · exact List.forall_mem_singleton.mpr hbyte

end LongestToken

/-- A text that spells a kind is read as this kind where nothing comes after it. -/
theorem Kind.Spells.exists_bytes {kind : Kind} {text : String} (h : kind.Spells text) :
    ∃ byte more, Utf8.encode text = byte :: more ∧
      longestToken byte more = (kind, byte :: more) := by
  have hnothing : ∀ byte ∈ ([] : List UInt8).head?, kind.absorbs byte = false := by simp
  obtain ⟨byte, more, hencode, hlongest, -⟩ := h.exists_longestToken hnothing
  rw [List.append_nil] at hlongest
  exact ⟨byte, more, hencode, hlongest⟩

/-- A byte starts no token just if none is read there. -/
theorem startsNone_iff {byte : UInt8} (rest : List UInt8) :
    StartsNone byte ↔ (longestToken byte rest).1 = .illegal := by
  constructor
  · intro h
    by_contra hlegal
    refine h _ _ (spells_longestToken hlegal) ?_
    rw [encode_latinText_longestToken hlegal]
    obtain ⟨after, hafter⟩ := prefix_longestToken byte rest
    have hhead := congrArg List.head? hafter
    rwa [List.head?_append_of_ne_nil _ (longestToken_ne_nil byte rest)] at hhead
  · intro h kind text hspells hhead
    obtain ⟨first, more, hencode, hlongest⟩ := hspells.exists_bytes
    obtain rfl : first = byte := by simpa [hencode] using hhead
    have hillegal : (longestToken first more).1 = .illegal :=
      longestToken_illegal_iff.mpr (longestToken_illegal_iff.mp h)
    rw [hlongest] at hillegal
    exact hspells.ne_illegal hillegal

theorem drop_eq_extract_append (bytes : List UInt8) {start stop : Nat} (h : start ≤ stop) :
    bytes.drop start = bytes.extract start stop ++ bytes.drop stop := by
  have hstop : bytes.drop stop = (bytes.drop start).drop (stop - start) := by
    rw [List.drop_drop, Nat.add_sub_cancel' h]
  rw [hstop, List.extract_eq_take_drop, List.take_append_drop]

theorem length_extract (bytes : List UInt8) (start : Nat) {stop : Nat} (h : stop ≤ bytes.length) :
    (bytes.extract start stop).length = stop - start := by
  rw [List.extract_eq_take_drop, List.length_take, List.length_drop]
  omega

theorem Span.ofLength_eq {offset length : Nat} (h : offset + length ≤ Position.maxOffset)
    (file : String) :
    Span.ofLength offset length file = ⟨⟨offset, file⟩, ⟨offset + length, file⟩⟩ := by
  rw [ofLength, Position.atOffset, Position.atOffset, Nat.min_eq_left h,
    Nat.min_eq_left (Nat.le_of_add_right_le h)]

namespace Token

variable {bytes : List UInt8} {file : String} {token : Token} {byte : UInt8} {rest : List UInt8}

/-- The end of the input covers no byte. -/
theorem Fits.kind_ne_eof (h : token.Fits bytes file) : token.kind ≠ .eof := by
  rcases h.read with ⟨hspells, -⟩ | ⟨hillegal, -⟩
  · exact hspells.ne_eof
  · simp [hillegal]

/-- The bytes that a token covers are the longest token at its start, and its kind and its text
are read off them. -/
theorem Fits.longestToken_eq (h : token.Fits bytes file)
    (hrest : bytes.drop token.span.start.offset = byte :: rest) :
    longestToken byte rest =
        (token.kind, bytes.extract token.span.start.offset token.span.stop.offset) ∧
      token.literal = latinText (bytes.extract token.span.start.offset token.span.stop.offset) := by
  rw [drop_eq_extract_append bytes (Nat.le_of_lt h.start_lt_stop)] at hrest
  rcases h.read with ⟨hspells, hextract⟩ | ⟨hkind, other, hnone, hliteral, hextract⟩
  · have hafter : ∀ other ∈ (bytes.drop token.span.stop.offset).head?,
        token.kind.absorbs other = false := by
      rw [List.head?_drop]
      exact h.longest
    obtain ⟨first, more, hencode, hlongest, htext⟩ := hspells.exists_longestToken hafter
    rw [hextract, hencode] at hrest ⊢
    obtain ⟨rfl, rfl⟩ := List.cons.inj hrest
    exact ⟨hlongest, htext.symm⟩
  · rw [hextract] at hrest ⊢
    obtain ⟨rfl, rfl⟩ := List.cons.inj hrest
    rw [hkind]
    exact ⟨longestToken_of_illegal ((startsNone_iff _).mp hnone), hliteral⟩

/-- A token fits where it starts just if it is the longest one there. -/
theorem fits_iff {offset : Nat} (hsize : bytes.length ≤ Position.maxOffset)
    (hrest : bytes.drop offset = byte :: rest) :
    token.Fits bytes file ∧ token.span.start.offset = offset ↔
      token = ⟨(longestToken byte rest).1, latinText (longestToken byte rest).2,
        .ofLength offset (longestToken byte rest).2.length file⟩ := by
  constructor
  · rintro ⟨h, rfl⟩
    obtain ⟨hlongest, hliteral⟩ := h.longestToken_eq hrest
    have hstart := h.start_lt_stop
    have hlength := length_extract bytes token.span.start.offset h.stop_le
    have hstop := Nat.add_sub_cancel' (Nat.le_of_lt hstart)
    rw [hlongest, hlength, Span.ofLength_eq (hstop.symm ▸ h.stop_le.trans hsize), hstop, ← hliteral]
    obtain ⟨kind, literal, ⟨⟨start, startFile⟩, ⟨stop, stopFile⟩⟩⟩ := token
    obtain rfl : startFile = file := h.start_file
    obtain rfl : stopFile = startFile := h.stop_file
    rfl
  · rintro rfl
    obtain ⟨after, hafter⟩ := prefix_longestToken byte rest
    have hne := List.length_pos_iff.mpr (longestToken_ne_nil byte rest)
    have hlength := congrArg List.length (hrest.trans hafter.symm)
    rw [List.length_drop, List.length_append] at hlength
    have hextract : bytes.extract offset (offset + (longestToken byte rest).2.length) =
        (longestToken byte rest).2 := by
      rw [List.extract_eq_take_drop, hrest, Nat.add_sub_cancel_left, ← hafter, List.take_left']
      exact rfl
    rw [Span.ofLength_eq (by omega)]
    refine ⟨⟨rfl, rfl, Nat.lt_add_of_pos_right hne, by simp only; omega, ?_, ?_⟩, rfl⟩
    · by_cases hillegal : (longestToken byte rest).1 = .illegal
      · have hone := longestToken_of_illegal hillegal
        refine .inr ⟨hillegal, byte, (startsNone_iff rest).mpr hillegal, ?_, ?_⟩
        · simp only [hone]
        · simp only [hextract]
          simp only [hone]
      · refine .inl ⟨spells_longestToken hillegal, ?_⟩
        rw [encode_latinText_longestToken hillegal]
        exact hextract
    · intro other hother
      refine absorbs_longestToken hafter.symm other ?_
      rw [← List.head?_drop, ← List.drop_drop, hrest, ← hafter, List.drop_left'] at hother
      · exact hother
      · rfl

/-- A token that covers no separator starts with a byte that is none. -/
theorem Fits.exists_start (h : token.Fits bytes file)
    (hinside : ∀ index byte, token.Covers index → bytes[index]? = some byte →
      isSeparator byte = false) :
    ∃ byte, bytes[token.span.start.offset]? = some byte ∧ ¬ isSeparator byte := by
  have hbyte := List.getElem?_eq_getElem (h.start_lt_stop.trans_le h.stop_le)
  exact ⟨_, hbyte, Bool.eq_false_iff.mp (hinside _ _ ⟨Nat.le_refl _, h.start_lt_stop⟩ hbyte)⟩

end Token

section Tiles

variable {bytes : List UInt8} {file : String} {start : Nat} {token : Token} {tokens : List Token}

theorem countP_covers_eq_zero {index : Nat}
    (h : ∀ token ∈ tokens, start ≤ token.span.start.offset) (hindex : index < start) :
    tokens.countP (fun token => token.Covers index) = 0 := by
  refine List.countP_eq_zero.mpr fun token hmem hcovers => ?_
  exact Nat.not_lt.mpr ((h token hmem).trans (of_decide_eq_true hcovers).1) hindex

theorem countP_covers_cons (index : Nat) :
    (token :: tokens).countP (fun token => token.Covers index) =
      tokens.countP (fun token => token.Covers index) + if token.Covers index then 1 else 0 := by
  simp only [List.countP_cons, decide_eq_true_eq]

/-- A token of a source starts with a byte that is no separator. -/
theorem Tiles.exists_start (h : Tiles bytes file start tokens) (hmem : token ∈ tokens) :
    ∃ byte, bytes[token.span.start.offset]? = some byte ∧ ¬ isSeparator byte := by
  refine (h.fits token hmem).exists_start fun index byte hcovers hbyte => ?_
  have hcount := h.covered index byte ((h.start_le token hmem).trans hcovers.1) hbyte
  have hpos : 0 < tokens.countP fun token => token.Covers index :=
    List.countP_pos_iff.mpr ⟨token, hmem, decide_eq_true hcovers⟩
  by_contra hseparator
  rw [hcount, if_pos (by simpa using hseparator)] at hpos
  exact Nat.lt_irrefl _ hpos

/-- No token tiles nothing but separators. -/
theorem tiles_nil_iff :
    Tiles bytes file start [] ↔
      ∀ index byte, start ≤ index → bytes[index]? = some byte → isSeparator byte := by
  constructor
  · intro h index byte hle hbyte
    by_contra hseparator
    simpa [hseparator] using h.covered index byte hle hbyte
  · intro h
    refine ⟨List.forall_mem_nil _, List.forall_mem_nil _, .nil, fun index byte hle hbyte => ?_⟩
    rw [if_pos (h index byte hle hbyte), List.countP_nil]

/-- The first token of a tiling has separators before it and none in it, and the others tile the
bytes after it. -/
theorem tiles_cons_iff :
    Tiles bytes file start (token :: tokens) ↔
      token.Fits bytes file ∧ start ≤ token.span.start.offset ∧
      (∀ index byte, start ≤ index → index < token.span.start.offset →
        bytes[index]? = some byte → isSeparator byte) ∧
      (∀ index byte, token.Covers index → bytes[index]? = some byte → isSeparator byte = false) ∧
      Tiles bytes file token.span.stop.offset tokens := by
  constructor
  · rintro ⟨hfits, hle, hordered, hcovered⟩
    obtain ⟨htoken, htokens⟩ := List.forall_mem_cons.mp hfits
    obtain ⟨hstart, -⟩ := List.forall_mem_cons.mp hle
    obtain ⟨hafter, hrest⟩ := List.pairwise_cons.mp hordered
    have hstop := htoken.start_lt_stop
    refine ⟨htoken, hstart, fun index byte hindex hlt hbyte => ?_, fun index byte hin hbyte => ?_,
      htokens, hafter, hrest, fun index byte hindex hbyte => ?_⟩
    · have hnone : ∀ other ∈ token :: tokens, token.span.start.offset ≤ other.span.start.offset :=
        List.forall_mem_cons.mpr
          ⟨Nat.le_refl _, fun other hmem => hstop.le.trans (hafter other hmem)⟩
      have hcount := hcovered index byte hindex hbyte
      rw [countP_covers_eq_zero hnone hlt] at hcount
      by_contra hseparator
      simp [hseparator] at hcount
    · have hcount := hcovered index byte (hstart.trans hin.1) hbyte
      rw [countP_covers_cons, if_pos hin] at hcount
      by_contra hseparator
      rw [Bool.not_eq_false] at hseparator
      simp [hseparator] at hcount
    · rw [← hcovered index byte (by omega) hbyte, countP_covers_cons,
        if_neg fun hin => Nat.not_lt.mpr hindex hin.2, Nat.add_zero]
  · rintro ⟨htoken, hstart, hbefore, hinside, htiles⟩
    have hstop := htoken.start_lt_stop
    refine ⟨List.forall_mem_cons.mpr ⟨htoken, htiles.fits⟩, ?_, ?_,
      fun index byte hindex hbyte => ?_⟩
    · refine List.forall_mem_cons.mpr ⟨hstart, fun other hmem => ?_⟩
      exact hstart.trans (hstop.le.trans (htiles.start_le other hmem))
    · exact List.pairwise_cons.mpr ⟨htiles.start_le, htiles.ordered⟩
    · by_cases hlt : index < token.span.stop.offset
      · -- The tokens after the first do not cover this byte.
        have hnone := countP_covers_eq_zero htiles.start_le hlt
        by_cases hin : token.span.start.offset ≤ index
        · rw [countP_covers_cons, hnone, if_pos ⟨hin, hlt⟩, hinside index byte ⟨hin, hlt⟩ hbyte]
          rfl
        · rw [countP_covers_cons, hnone, if_neg fun h => hin h.1,
            if_pos (hbefore index byte hindex (Nat.not_le.mp hin) hbyte)]
      · rw [countP_covers_cons, if_neg fun h => hlt h.2]
        exact htiles.covered index byte (Nat.not_lt.mp hlt) hbyte

end Tiles

namespace Lexer

variable {bytes : List UInt8} {lexer after : Lexer} {token : Token}

/-- A lexer that stands in a source stands in it after some more bytes. -/
theorem Passes.rest_eq_drop {more : List UInt8} (h : lexer.Passes more after)
    (hrest : lexer.rest = bytes.drop lexer.offset) : after.rest = bytes.drop after.offset := by
  rw [h.offset_eq, ← List.drop_drop, ← hrest, h.rest_eq, List.drop_left']
  rfl

/-- The bytes that are skipped before a token are separators. -/
theorem isSeparator_of_lt_skipSeparators (hrest : lexer.rest = bytes.drop lexer.offset)
    {index : Nat} {byte : UInt8} (hle : lexer.offset ≤ index)
    (hlt : index < lexer.skipSeparators.offset) (hbyte : bytes[index]? = some byte) :
    isSeparator byte := by
  obtain ⟨count, rfl⟩ := Nat.exists_eq_add_of_le hle
  have hpasses := passes_skipSeparators lexer
  rw [hpasses.offset_eq, Nat.add_lt_add_iff_left] at hlt
  rw [← List.getElem?_drop, ← hrest, hpasses.rest_eq, List.getElem?_append_left hlt] at hbyte
  exact List.mem_takeWhile_imp (List.mem_of_getElem? hbyte)

/-- What comes after them is no separator. -/
theorem isSeparator_of_skipSeparators {byte : UInt8} {rest : List UInt8}
    (h : lexer.skipSeparators.rest = byte :: rest) : isSeparator byte = false := by
  have hpasses := (passes_skipSeparators lexer).rest_eq
  have hdrop : lexer.rest.dropWhile isSeparator = byte :: rest := by
    rw [← h]
    exact List.append_cancel_left (List.takeWhile_append_dropWhile.trans hpasses)
  simpa [hdrop] using List.head?_dropWhile_not isSeparator lexer.rest

/-- The token that is drawn starts after the separators, fits there, and covers none. -/
theorem fits_of_next? (hsize : bytes.length ≤ Position.maxOffset)
    (hrest : lexer.rest = bytes.drop lexer.offset) (hnext : lexer.next? = some (token, after)) :
    token.Fits bytes lexer.file ∧ token.span.start.offset = lexer.skipSeparators.offset ∧
      token.span.stop.offset = after.offset ∧
      ∀ index byte, token.Covers index → bytes[index]? = some byte → isSeparator byte = false := by
  have hskip := (passes_skipSeparators lexer).rest_eq_drop hrest
  obtain ⟨byte, rest, hstart, htoken, rfl⟩ := next?_eq_some_iff.mp hnext
  have hdrop := hskip.symm.trans hstart
  obtain ⟨hfits, hoffset⟩ := (Token.fits_iff hsize hdrop).mpr htoken
  obtain ⟨hlongest, -⟩ := hfits.longestToken_eq (hoffset.symm ▸ hdrop)
  have hlength := congrArg (fun drawn => drawn.2.length) hlongest
  simp only [length_extract bytes _ hfits.stop_le] at hlength
  have hlt := hfits.start_lt_stop
  refine ⟨hfits, hoffset, by simp only [skip]; omega, fun index other hin hother => ?_⟩
  obtain ⟨count, rfl⟩ := Nat.exists_eq_add_of_le hin.1
  have hcount : count < (longestToken byte rest).2.length := by
    have hstop := hin.2
    omega
  obtain ⟨more, hmore⟩ := prefix_longestToken byte rest
  rw [hoffset, ← List.getElem?_drop, hdrop, ← hmore, List.getElem?_append_left hcount] at hother
  exact isSeparator_of_mem_longestToken (isSeparator_of_skipSeparators hstart) other
    (List.mem_of_getElem? hother)

/-- A tiling starts with the token that is drawn. -/
theorem tiles_cons_iff_of_next? (hsize : bytes.length ≤ Position.maxOffset)
    (hrest : lexer.rest = bytes.drop lexer.offset) (hnext : lexer.next? = some (token, after))
    {first : Token} {tokens : List Token} :
    Tiles bytes lexer.file lexer.offset (first :: tokens) ↔
      first = token ∧ Tiles bytes lexer.file after.offset tokens := by
  obtain ⟨hfits, hoffset, hstop, hinside⟩ := fits_of_next? hsize hrest hnext
  constructor
  · intro h
    obtain ⟨hfirst, hle, hbefore, hclear, htiles⟩ := tiles_cons_iff.mp h
    obtain ⟨byte, hbyte, hno⟩ := hfits.exists_start hinside
    obtain ⟨firstByte, hfirstByte, hfirstNo⟩ := hfirst.exists_start hclear
    -- Both tokens start at the first byte that is no separator.
    have hsame : first.span.start.offset = token.span.start.offset := by
      rcases Nat.lt_trichotomy first.span.start.offset token.span.start.offset with hlt | heq | hlt
      · exact absurd (isSeparator_of_lt_skipSeparators hrest hle (hoffset ▸ hlt) hfirstByte)
          hfirstNo
      · exact heq
      · exact absurd (hbefore _ _ (hoffset ▸ Nat.le_add_right _ _) hlt hbyte) hno
    have hdrop := List.drop_eq_getElem_cons (hfits.start_lt_stop.trans_le hfits.stop_le)
    have heq : first = token :=
      ((Token.fits_iff hsize hdrop).mp ⟨hfirst, hsame⟩).trans
        ((Token.fits_iff hsize hdrop).mp ⟨hfits, rfl⟩).symm
    exact ⟨heq, hstop ▸ heq ▸ htiles⟩
  · rintro ⟨rfl, htiles⟩
    refine tiles_cons_iff.mpr ⟨hfits, ?_, ?_, hinside, hstop ▸ htiles⟩
    · rw [hoffset]
      exact Nat.le_add_right _ _
    · rw [hoffset]
      exact fun index byte => isSeparator_of_lt_skipSeparators hrest

/-- The tokens that a lexer draws tile the bytes that are left, and no other tokens do. -/
theorem eq_content_iff_tiles (hsize : bytes.length ≤ Position.maxOffset)
    (hrest : lexer.rest = bytes.drop lexer.offset) (tokens : List Token) :
    tokens = lexer.content ↔ Tiles bytes lexer.file lexer.offset tokens := by
  fun_induction content lexer generalizing tokens with
  | case1 lexer hnext =>
    have hskip := (passes_skipSeparators lexer).rest_eq_drop hrest
    rw [next?_eq_none_iff.mp hnext, eq_comm, List.drop_eq_nil_iff] at hskip
    have hseparators : ∀ index byte, lexer.offset ≤ index → bytes[index]? = some byte →
        isSeparator byte := by
      intro index byte hle hbyte
      have hlt := (List.getElem?_eq_some_iff.mp hbyte).1.trans_le hskip
      exact isSeparator_of_lt_skipSeparators hrest hle hlt hbyte
    cases tokens with
    | nil => exact iff_of_true rfl (tiles_nil_iff.mpr hseparators)
    | cons token tokens =>
      refine iff_of_false (List.cons_ne_nil _ _) fun h => ?_
      obtain ⟨hfits, hle, -, hinside, -⟩ := tiles_cons_iff.mp h
      obtain ⟨byte, hbyte, hno⟩ := hfits.exists_start hinside
      exact hno (hseparators _ _ hle hbyte)
  | case2 lexer token after hnext _ ih =>
    obtain ⟨more, hpasses, -⟩ := passes_of_next? hnext
    have hafter := hpasses.rest_eq_drop ((passes_skipSeparators lexer).rest_eq_drop hrest)
    cases tokens with
    | nil =>
      refine iff_of_false (List.cons_ne_nil _ _).symm fun h => ?_
      obtain ⟨hfits, hoffset, -, hinside⟩ := fits_of_next? hsize hrest hnext
      obtain ⟨byte, hbyte, hno⟩ := hfits.exists_start hinside
      exact hno (tiles_nil_iff.mp h _ _ (hoffset ▸ Nat.le_add_right _ _) hbyte)
    | cons first tokens =>
      rw [List.cons.injEq, tiles_cons_iff_of_next? hsize hrest hnext, ih hafter tokens,
        hpasses.file_eq]
      rfl

/-- The tokens of a source tile its bytes. -/
theorem tiles_ofString {source : String} (hsize : source.utf8ByteSize ≤ Position.maxOffset)
    (file : Option String) :
    Tiles (Utf8.encode source) (file.getD defaultFile) 0 (ofString source file).content := by
  have hbytes : (ofString source file).rest = (Utf8.encode source).drop 0 := rfl
  exact (eq_content_iff_tiles (Utf8.length_encode source ▸ hsize) hbytes _).mp rfl

/-- A token of a source is one of those drawn, unless it is the end of the input. -/
theorem mem_content_of_mem_tokenize {source : String} {file : Option String} {token : Token}
    (hmem : token ∈ tokenize source file) (hkind : token.kind ≠ .eof) :
    token ∈ (ofString source file).content := by
  refine (List.mem_append.mp hmem).resolve_right fun hend => hkind ?_
  rw [List.mem_singleton.mp hend]
  rfl

end Lexer

/-- Lexing is the tiling of the source: the tokens before the end of the input tile its bytes, and
they are the only ones that do. -/
theorem eq_tokenize_iff_tiles (source : String) (file : Option String)
    (hsize : source.utf8ByteSize ≤ Position.maxOffset) (tokens : List Token) :
    tokens = tokenize source file ↔
      ∃ content, tokens = content ++ [⟨.eof, "",
          ⟨⟨source.utf8ByteSize, file.getD Lexer.defaultFile⟩,
            ⟨source.utf8ByteSize, file.getD Lexer.defaultFile⟩⟩⟩] ∧
        (∀ token ∈ content, token.kind ≠ .eof) ∧
        Tiles (Utf8.encode source) (file.getD Lexer.defaultFile) 0 content := by
  have htiles (content : List Token) :
      content = (Lexer.ofString source file).content ↔
        Tiles (Utf8.encode source) (file.getD Lexer.defaultFile) 0 content :=
    Lexer.eq_content_iff_tiles (Utf8.length_encode source ▸ hsize) rfl content
  have hfinish : Token.endOfInput (Lexer.ofString source file).finish =
      ⟨.eof, "", ⟨⟨source.utf8ByteSize, file.getD Lexer.defaultFile⟩,
        ⟨source.utf8ByteSize, file.getD Lexer.defaultFile⟩⟩⟩ := by
    have hend := (Lexer.Stands.ofString source file).offset_toEnd
    rw [Token.endOfInput, Lexer.finish, hend, Position.atOffset, Nat.min_eq_left hsize]
    rfl
  rw [tokenize, Lexer.tokens, hfinish]
  constructor
  · rintro rfl
    have hcontent := (htiles _).mp rfl
    exact ⟨_, rfl, fun token hmem => (hcontent.fits token hmem).kind_ne_eof, hcontent⟩
  · rintro ⟨content, rfl, -, hcontent⟩
    rw [(htiles content).mpr hcontent]

/-- The two bytes of `é` are illegal tokens of their own. -/
theorem tiles_tokenize_not_letter :
    ∃ content, tokenize "!é =" none = content ++ [⟨.eof, "",
          ⟨⟨5, Lexer.defaultFile⟩, ⟨5, Lexer.defaultFile⟩⟩⟩] ∧
      (∀ token ∈ content, token.kind ≠ .eof) ∧
      Tiles (Utf8.encode "!é =") Lexer.defaultFile 0 content :=
  (eq_tokenize_iff_tiles "!é =" none (by decide) _).mp rfl

end LetScript
