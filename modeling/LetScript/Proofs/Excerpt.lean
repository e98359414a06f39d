import LetScript.Diagnostic.Excerpt
import LetScript.Proofs.Causes
import LetScript.Proofs.Lines
import Mathlib.Data.List.DropRight

/-!
# Diagnostics take five lines

No line feed comes into the text of a diagnostic but those that end its five lines. Messages and
tips spell tokens in quotes or by the names of their kinds, or they repeat digits; and of the source
only one line is shown, without the line feed it ends with. Hence the lines of the text are those
that it was made of, if the source has no name.
-/

namespace LetScript

/-- The lines of a text: what stands between its line feeds. -/
def lines (text : String) : List (List Char) := text.toList.splitOn '\n'

/-- The text has no line feed. -/
def OneLine (text : String) : Prop := '\n' ∉ text.toList

instance (text : String) : Decidable (OneLine text) := inferInstanceAs (Decidable (¬ _))

section OneLine

theorem oneLine_append {first second : String} :
    OneLine (first ++ second) ↔ OneLine first ∧ OneLine second := by
  rw [OneLine, String.toList_append, List.mem_append, not_or]
  rfl

/-- Texts that are ended by a line feed each are the lines, and nothing comes after the last. -/
theorem lines_join {texts : List String} (h : ∀ text ∈ texts, OneLine text) :
    lines (String.join (texts.map (· ++ "\n"))) = texts.map String.toList ++ [[]] := by
  induction texts with
  | nil => rfl
  | cons text texts ih =>
    have hrest := ih fun other hmem => h other (List.mem_cons_of_mem _ hmem)
    rw [lines] at hrest ⊢
    rw [List.map_cons, String.join_cons, String.toList_append, String.toList_append,
      List.append_assoc, show "\n".toList = ['\n'] from rfl, List.singleton_append,
      List.splitOn_append_cons_self_of_not_mem (h text List.mem_cons_self), hrest]
    rfl

/-- Numbers are written without line feeds. -/
theorem lineFeed_notMem_toDigits {base : Nat} (hbase : 1 < base) (number : Nat) :
    '\n' ∉ Nat.toDigits base number := by
  have hdigit (digit : Nat) (hlt : digit < base) : '\n' ∉ Nat.toDigits base digit := by
    rw [Nat.toDigits_of_lt_base hlt, List.mem_singleton]
    exact fun heq => Nat.digitChar_ne '\n' (by decide) heq.symm
  induction number using Nat.strongRecOn with
  | ind number ih =>
    by_cases hlt : number < base
    · exact hdigit number hlt
    · have hpos : 0 < number / base := Nat.div_pos (Nat.not_lt.mp hlt) (by omega)
      have hmod := Nat.mod_lt number (by omega : 0 < base)
      rw [← Nat.div_add_mod number base, ← Nat.toDigits_append_toDigits hbase hpos hmod,
        List.mem_append]
      exact not_or.mpr ⟨ih _ (Nat.div_lt_self (by omega) hbase), hdigit _ hmod⟩

theorem oneLine_toString (number : Nat) : OneLine (toString number) := by
  rw [OneLine, Nat.toString_eq_repr, Nat.repr, String.toList_ofList]
  exact lineFeed_notMem_toDigits (by decide) number

/-- A quoted text is on one line, whatever it quotes. -/
theorem Quoted.oneLine_encode (text : String) : OneLine (Quoted.encode text) := by
  have hescape (c : Char) : '\n' ∉ escape c := by
    by_cases hfeed : c = '\n'
    · rw [hfeed]
      decide
    · unfold escape
      repeat' split
      all_goals simp [lineFeed_notMem_toDigits, Ne.symm hfeed]
  simp [OneLine, Quoted.encode, hescape]

theorem Kind.oneLine_name (kind : Kind) : OneLine kind.name := by
  cases kind <;> decide

theorem Decimal.lineFeed_notMem_of_valueAfter? {chars : List Char} {before value : Nat}
    (h : valueAfter? before chars = some value) : '\n' ∉ chars := by
  induction chars generalizing before with
  | nil => exact List.not_mem_nil
  | cons c rest ih =>
    obtain ⟨digit, hdigit, hrest⟩ := Option.bind_eq_some_iff.mp h
    refine List.not_mem_cons_of_ne_of_not_mem ?_ (ih hrest)
    rintro rfl
    cases hdigit

/-- What has a value as a number is on one line. -/
theorem Decimal.lineFeed_notMem_of_value? {chars : List Char} {value : Nat}
    (h : value? chars = some value) : '\n' ∉ chars := by
  cases chars with
  | nil => cases h
  | cons => exact lineFeed_notMem_of_valueAfter? h

/-- Between two texts on one line a third one may stand. -/
theorem OneLine.enclose {first middle last : String} (hfirst : OneLine first)
    (hmiddle : OneLine middle) (hlast : OneLine last) : OneLine (first ++ middle ++ last) :=
  oneLine_append.mpr ⟨oneLine_append.mpr ⟨hfirst, hmiddle⟩, hlast⟩

theorem Cause.oneLine_message (cause : Cause) : OneLine cause.message := by
  cases cause with
  | unrecognisedToken literal =>
    exact oneLine_append.mpr ⟨by decide +kernel, Quoted.oneLine_encode literal⟩
  | unexpectedToken expected found =>
    have hkinds : OneLine ("expected next token to be " ++ expected.name ++ ", got ") :=
      OneLine.enclose (by decide +kernel) expected.oneLine_name (by decide +kernel)
    exact hkinds.enclose found.oneLine_name (by decide +kernel)
  | noPrefixRule kind =>
    exact OneLine.enclose (by decide +kernel) kind.oneLine_name (by decide +kernel)
  | unreadableInteger literal =>
    exact OneLine.enclose (by decide +kernel) (Quoted.oneLine_encode literal) (by decide +kernel)
  | unterminatedBlock => decide +kernel
  | nestingTooDeep limit =>
    exact OneLine.enclose (by decide +kernel) (oneLine_toString limit) (by decide +kernel)

/-- The tip of a cause repeats no more than digits and names. -/
theorem Cause.HoldsAt.oneLine_tip {cause : Cause} {front : List Token} {token : Token}
    (h : cause.HoldsAt front token) {tip : String} (htip : cause.tip? = some tip) :
    OneLine tip := by
  cases cause with
  | unrecognisedToken literal => cases htip
  | unexpectedToken expected found =>
    by_cases hexpected : expected = .semicolon
    · subst hexpected
      cases htip
      decide +kernel
    · rw [tip?] at htip
      · cases htip
      · exact hexpected
  | noPrefixRule kind =>
    cases htip
    exact OneLine.enclose (by decide +kernel) kind.oneLine_name (by decide +kernel)
  | unreadableInteger literal =>
    obtain ⟨-, -, value, hvalue, -⟩ := h
    cases htip
    exact OneLine.enclose (by decide +kernel) (Decimal.lineFeed_notMem_of_value? hvalue)
      (by decide +kernel)
  | unterminatedBlock =>
    cases htip
    decide +kernel
  | nestingTooDeep limit =>
    cases htip
    decide +kernel

end OneLine

section Trim

variable {first second : List Char}

/-- Blanks at the end are taken away, all of them. -/
theorem trimBlankEnd_append_of_blank (h : ∀ c ∈ second, isBlank c) :
    trimBlankEnd (first ++ second) = trimBlankEnd first := by
  have hdrop : second.reverse.dropWhile isBlank = [] :=
    List.dropWhile_eq_nil_iff.mpr fun c hmem => h c (List.mem_reverse.mp hmem)
  rw [trimBlankEnd, List.reverse_append, List.dropWhile_append, hdrop, List.isEmpty_nil,
    if_pos rfl, trimBlankEnd]

/-- They are taken away as far as the last character that is none. -/
theorem trimBlankEnd_append_of_ne_nil (h : trimBlankEnd second ≠ []) :
    trimBlankEnd (first ++ second) = first ++ trimBlankEnd second := by
  have hdrop : ¬ (second.reverse.dropWhile isBlank).isEmpty := fun hempty =>
    h (List.reverse_eq_nil_iff.mpr (List.isEmpty_iff.mp hempty))
  rw [trimBlankEnd, List.reverse_append, List.dropWhile_append, if_neg hdrop, List.reverse_append,
    List.reverse_reverse, trimBlankEnd]

theorem prefix_trimBlankEnd (chars : List Char) : trimBlankEnd chars <+: chars :=
  List.rdropWhile_prefix isBlank chars

/-- What a line ends with is blank. -/
theorem isBlank_of_feed {feed : List Char} (h : feed = [] ∨ feed = ['\n']) :
    ∀ c ∈ feed, isBlank c := by
  rcases h with rfl | rfl
  · exact List.forall_mem_nil _
  · exact List.forall_mem_singleton.mpr (by decide)

/-- Indentation ends where another character comes. -/
theorem dropWhile_append_of_head {test : Char → Bool} (h : ∀ c ∈ second.head?, test c = false) :
    (first ++ second).dropWhile test = first.dropWhile test ++ second := by
  have hsecond : second.dropWhile test = second := by
    cases second with
    | nil => rfl
    | cons c rest => exact List.dropWhile_cons_of_neg (by simp [h c rfl])
  rw [List.dropWhile_append, hsecond]
  split
  next hempty => rw [List.isEmpty_iff.mp hempty, List.nil_append]
  next => rfl

end Trim

namespace Location

/-- A line has no line feed but at its end. -/
theorem exists_text_within (chars : List Char) (number offset : Nat) :
    ∃ line feed, (within chars number offset).text.toList = line ++ feed ∧ '\n' ∉ line ∧
      (feed = [] ∨ feed = ['\n']) := by
  fun_induction within chars number offset with
  | case1 chars number offset hleft =>
    refine ⟨chars, [], ?_, dropWhile_mark_eq_nil_iff.mp hleft, .inl rfl⟩
    rw [String.toList_ofList, List.append_nil]
  | case2 _ _ _ _ _ _ _ _ _ ih => exact ih
  | case3 chars number offset feed rest hleft =>
    obtain ⟨rfl, hmem, -⟩ := split_of_dropWhile hleft
    exact ⟨_, _, String.toList_ofList, hmem, .inr rfl⟩

end Location

namespace Diagnostic

theorem toList_pushn (text : String) (c : Char) (count : Nat) :
    (text.pushn c count).toList = text.toList ++ List.replicate count c := by
  rw [String.pushn_eq_repeat_push]
  induction count with
  | zero => exact (List.append_nil _).symm
  | succ count ih =>
    rw [Nat.repeat, String.toList_push, ih, List.append_assoc, List.replicate_succ']

theorem oneLine_pushn {text : String} (h : OneLine text) {c : Char} (hc : c ≠ '\n') (count : Nat) :
    OneLine (text.pushn c count) := by
  rw [OneLine, toList_pushn, List.mem_append]
  exact not_or.mpr ⟨h, fun hmem => hc (List.eq_of_mem_replicate hmem).symm⟩

theorem oneLine_bar (width : Nat) : OneLine (bar width) :=
  oneLine_append.mpr ⟨oneLine_pushn (by decide) (by decide) _, by decide⟩

/-- Of the source one line is shown. -/
theorem lineFeed_notMem_shown (source : String) (offset : Nat) :
    '\n' ∉ trimBlankEnd ((locate source offset).text.toList.dropWhile isIndent) := by
  obtain ⟨line, feed, htext, hline, hfeed⟩ := Location.exists_text_within source.toList 1 offset
  have hindent : ∀ c ∈ feed.head?, isIndent c = false := by
    rcases hfeed with rfl | rfl <;> simp [isIndent]
  rw [locate, htext, dropWhile_append_of_head hindent,
    trimBlankEnd_append_of_blank (isBlank_of_feed hfeed)]
  exact fun hmem => hline ((List.dropWhile_suffix isIndent).subset
    ((prefix_trimBlankEnd _).subset hmem))

/-- A diagnostic with a message on one line takes five lines, in a source with a name on one. -/
theorem lines_render {diagnostic : Diagnostic} (hheadline : OneLine diagnostic.headline)
    (hfile : OneLine diagnostic.position.file) (source : String) :
    lines (diagnostic.render source) = (diagnostic.excerpt source).map String.toList ++ [[]] := by
  refine lines_join fun text hmem => ?_
  simp only [excerpt, List.mem_cons, List.not_mem_nil, or_false] at hmem
  rcases hmem with rfl | rfl | rfl | rfl | rfl
  · exact hheadline
  · exact oneLine_append.mpr ⟨by decide +kernel, hfile⟩
  · exact oneLine_bar _
  · refine OneLine.enclose (oneLine_toString _) (by decide +kernel) ?_
    rw [OneLine, String.toList_ofList]
    exact lineFeed_notMem_shown source _
  · have hdashes (count : Nat) : OneLine ("".pushn '-' count) :=
      oneLine_pushn (by decide) (by decide) count
    exact oneLine_append.mpr ⟨OneLine.enclose (oneLine_bar _) (by decide) (hdashes _), by decide⟩

theorem oneLine_headline {diagnostic : Diagnostic} {front : List Token} {token : Token}
    (h : diagnostic.cause.HoldsAt front token) : OneLine diagnostic.headline := by
  have hmessage : OneLine ("Error: " ++ diagnostic.cause.message) :=
    oneLine_append.mpr ⟨by decide, diagnostic.cause.oneLine_message⟩
  unfold headline
  split
  next => exact hmessage
  next tip htip =>
    have hopen := oneLine_append.mpr ⟨hmessage, (by decide : OneLine " (")⟩
    exact hopen.enclose (h.oneLine_tip htip) (by decide)

/-- A diagnostic stands between two characters of the source. -/
theorem exists_offset {source : String} {file : Option String} {diagnostic : Diagnostic}
    (hmem : diagnostic ∈ (parse source file).2) :
    ∃ offset, diagnostic.position = .atOffset offset (file.getD Lexer.defaultFile) ∧
      String.Pos.Raw.IsValid source ⟨offset⟩ := by
  obtain ⟨offsets, hpositions, -, hvalid⟩ := exists_offsets_of_diagnostics
    (fun _ => Cursor.outside_ofString source file) (Lexer.serves_ofString source file)
  obtain ⟨offset, hoffset, heq⟩ :=
    List.mem_map.mp (hpositions ▸ List.mem_map_of_mem (f := position) hmem)
  exact ⟨offset, heq.symm, (hvalid offset hoffset).2⟩

/-- The diagnostics of a source without a name take five lines. -/
theorem lines_render_of_mem {source : String} {diagnostic : Diagnostic}
    (hmem : diagnostic ∈ (parse source none).2) :
    lines (diagnostic.render source) = (diagnostic.excerpt source).map String.toList ++ [[]] := by
  obtain ⟨attempt, hattempt, hresult⟩ := Attempt.exists_of_mem_diagnostics hmem
  obtain ⟨front, token, -, -, -, hholds⟩ := exists_holdsAt_of_attempt hattempt hresult
  obtain ⟨offset, hposition, -⟩ := exists_offset hmem
  refine lines_render (oneLine_headline hholds) ?_ source
  rw [hposition, Position.file_atOffset]
  decide +kernel

end Diagnostic

end LetScript
