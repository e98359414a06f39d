import LetScript.CommandLine.Invocation
import LetScript.Proofs.Excerpt
import LetScript.Proofs.Reporting
import LetScript.Proofs.Shifting
import LetScript.Proofs.Tiling

/-!
# A session answers its lines one by one

A line is answered as if it stood alone: by what a run on a file with these bytes prints, or by the
list of its tokens if it asks for one. So a session is its banner and, for each of its lines, the
prompt and this answer, up to the line that ends it. Neither the lines before nor those after have a
part in an answer.

A line with a diagnostic that is too wide to be drawn breaks the session off. Up to this diagnostic
it is still answered, as a run on a file with these bytes would, but the session fails.

How an input is cut into lines is told here without cutting it, and what it means for a line to be
the word `exit` and blanks without taking these away.
-/

namespace LetScript

section Listing

theorem oneLine_latinText {bytes : List UInt8} (h : lineFeed ∉ bytes) :
    OneLine (latinText bytes) := by
  intro hmem
  rw [latinText, String.toList_ofList] at hmem
  obtain ⟨byte, hbyte, hfeed⟩ := List.mem_map.mp hmem
  obtain rfl : byte = lineFeed := UInt8.toUInt32_inj.mp (congrArg Char.val hfeed)
  exact h hbyte

/-- The text of a token has no line feed. -/
theorem Lexer.oneLine_of_mem_content {lexer : Lexer} {token : Token}
    (h : token ∈ lexer.content) : OneLine token.literal := by
  fun_induction content lexer with
  | case1 => contradiction
  | case2 lexer first after hnext _ ih =>
    rcases List.mem_cons.mp h with rfl | hlater
    · obtain ⟨byte, rest, hrest, rfl, -⟩ := next?_eq_some_iff.mp hnext
      have hfirst := isSeparator_of_skipSeparators hrest
      exact oneLine_latinText fun hmem =>
        absurd (isSeparator_of_mem_longestToken hfirst lineFeed hmem) (by decide)
    · exact ih hlater

theorem oneLine_of_mem_tokenize {source : String} {file : Option String} {token : Token}
    (h : token ∈ tokenize source file) : OneLine token.literal := by
  rcases List.mem_append.mp h with hmem | hend
  · exact Lexer.oneLine_of_mem_content hmem
  · rw [List.mem_singleton.mp hend]
    exact List.not_mem_nil

theorem Token.oneLine_summary {token : Token} (h : OneLine token.literal) :
    OneLine token.summary := by
  unfold summary
  split
  · exact OneLine.enclose (oneLine_append.mpr ⟨token.kind.oneLine_name, by decide⟩) h (by decide)
  · exact oneLine_append.mpr ⟨token.kind.oneLine_name, by decide⟩

/-- A listing has one line for each token. -/
theorem lines_tokenListing (source : String) :
    lines (tokenListing source) = (tokenize source none).map (·.summary.toList) ++ [[]] := by
  have hlisting : tokenListing source =
      String.join (((tokenize source none).map Token.summary).map (· ++ "\n")) := by
    rw [tokenListing, List.map_map]
    rfl
  rw [hlisting, lines_join, List.map_map]
  · rfl
  · intro entry hmem
    obtain ⟨token, htoken, rfl⟩ := List.mem_map.mp hmem
    exact Token.oneLine_summary (oneLine_of_mem_tokenize htoken)

end Listing

/-- Without the blanks around it a text is a word that neither starts nor ends with one. -/
theorem trimBlank_eq_iff {chars word : List Char} (hne : word ≠ [])
    (hfirst : isBlank (word.head hne) = false) (hlast : isBlank (word.getLast hne) = false) :
    trimBlank chars = word ↔
      ∃ before after, (∀ c ∈ before ++ after, isBlank c) ∧ chars = before ++ word ++ after := by
  constructor
  · intro h
    refine ⟨chars.takeWhile isBlank, (chars.dropWhile isBlank).rtakeWhile isBlank, ?_, ?_⟩
    · exact List.forall_mem_append.mpr
        ⟨fun c => List.mem_takeWhile_imp, fun c => List.mem_rtakeWhile_imp⟩
    · have hdrop : chars.dropWhile isBlank =
          word ++ (chars.dropWhile isBlank).rtakeWhile isBlank := by
        rw [← h]
        exact List.rdropWhile_append_rtakeWhile.symm
      rw [List.append_assoc, ← hdrop, List.takeWhile_append_dropWhile]
  · rintro ⟨before, after, hblank, rfl⟩
    obtain ⟨hbefore, hafter⟩ := List.forall_mem_append.mp hblank
    -- the word stops the removal from the front, and then the one from the end
    have hword : word.dropWhile isBlank = word := by
      rw [List.dropWhile_eq_self_iff]
      intro hlength
      rw [← List.head_eq_getElem hne, hfirst]
      exact Bool.false_ne_true
    have hdrop : (before ++ word ++ after).dropWhile isBlank = word ++ after := by
      rw [List.append_assoc, List.dropWhile_append_of_pos hbefore, List.dropWhile_append, hword,
        if_neg (by simpa using hne)]
    rw [trimBlank, hdrop, trimBlankEnd_append_of_blank hafter]
    exact List.rdropWhile_eq_self_iff.mpr fun _ => by simp [hlast]

namespace Session

section Cut

/-- The cut of an input into lines: a line feed ends a line and is left out together with a
carriage return directly before it, and what comes after the last line feed is a line unless it is
empty. -/
inductive Cut : List UInt8 → List (List UInt8) → Prop where
  | nil : Cut [] []
  | unended {line : List UInt8} (hne : line ≠ []) (hfeed : lineFeed ∉ line) : Cut line [line]
  | feed {line rest : List UInt8} {cut : List (List UInt8)} (hfeed : lineFeed ∉ line)
      (hreturn : line.getLast? ≠ some 0x0d) (hrest : Cut rest cut) :
      Cut (line ++ lineFeed :: rest) (line :: cut)
  | returnFeed {line rest : List UInt8} {cut : List (List UInt8)} (hfeed : lineFeed ∉ line)
      (hrest : Cut rest cut) : Cut (line ++ 0x0d :: lineFeed :: rest) (line :: cut)

theorem lines_of_notMem {line : List UInt8} (hfeed : lineFeed ∉ line) :
    lines line = if line = [] then [] else [line] := by
  have hnone : line.dropWhile (· != 0x0a) = [] := dropWhile_mark_eq_nil_iff.mpr hfeed
  rw [lines]
  split
  · rfl
  · next hsome => exact absurd (hnone.symm.trans hsome) (List.cons_ne_nil _ _).symm

theorem lines_append_lineFeed {line : List UInt8} (hfeed : lineFeed ∉ line) (rest : List UInt8) :
    lines (line ++ lineFeed :: rest) = dropReturn line :: lines rest := by
  obtain ⟨htake, hdrop⟩ := cut_at_mark hfeed rest
  rw [lines]
  split
  · next hnone => exact absurd (hdrop.symm.trans hnone) (List.cons_ne_nil _ _)
  · next found left hsome =>
    obtain rfl : left = rest := (List.cons.inj (hsome.symm.trans hdrop)).2
    exact congrArg (dropReturn · :: lines left) htake

theorem Cut.eq_lines {input : List UInt8} {cut : List (List UInt8)} (h : Cut input cut) :
    cut = lines input := by
  induction h with
  | nil => exact (lines_of_notMem List.not_mem_nil).symm
  | unended hne hfeed => rw [lines_of_notMem hfeed, if_neg hne]
  | feed hfeed hreturn _ ih => rw [lines_append_lineFeed hfeed, dropReturn, if_neg hreturn, ih]
  | @returnFeed line rest cut hfeed _ ih =>
    have hboth : lineFeed ∉ line ++ [0x0d] := by
      simpa using ⟨hfeed, by decide⟩
    have hreturn : line ++ 0x0d :: lineFeed :: rest = line ++ [0x0d] ++ lineFeed :: rest := by
      rw [List.append_assoc, List.singleton_append]
    rw [hreturn, lines_append_lineFeed hboth, dropReturn, List.getLast?_concat, if_pos rfl,
      List.dropLast_concat, ih]

theorem cut_lines (input : List UInt8) : Cut input (lines input) := by
  fun_induction lines input with
  | case1 => exact .nil
  | case2 input hdrop hne => exact .unended hne (dropWhile_mark_eq_nil_iff.mp hdrop)
  | case3 input found rest hdrop _ ih =>
    obtain ⟨rfl, hfeed, hinput⟩ := split_of_dropWhile hdrop
    generalize input.takeWhile (· != 0x0a) = line at hfeed hinput
    subst hinput
    by_cases hreturn : line.getLast? = some 0x0d
    · -- the carriage return goes with the line feed, and others before it stay
      obtain ⟨line, rfl⟩ := List.getLast?_eq_some_iff.mp hreturn
      rw [dropReturn, if_pos hreturn, List.dropLast_concat, List.append_assoc]
      exact .returnFeed (fun hmem => hfeed (List.mem_append_left _ hmem)) ih
    · rw [dropReturn, if_neg hreturn]
      exact .feed hfeed hreturn ih

/-- There is one cut of an input, and it is the one that a session makes. -/
theorem cut_iff {input : List UInt8} {cut : List (List UInt8)} :
    Cut input cut ↔ cut = lines input :=
  ⟨Cut.eq_lines, fun h => h ▸ cut_lines input⟩

end Cut

section Answer

/-- A line that is the word `exit`, with blanks around it. -/
def Exits (line : String) : Prop :=
  ∃ before after, (∀ c ∈ before ++ after, isBlank c) ∧
    line.toList = before ++ "exit".toList ++ after

theorem isExit_iff {line : String} : isExit line ↔ Exits line :=
  decide_eq_true_iff.trans (trimBlank_eq_iff (by decide) (by decide) (by decide))

theorem listingRequest?_eq_some_iff {line source : String} :
    listingRequest? line = some source ↔ line = ":tokens " ++ source := by
  rw [listingRequest?, Option.map_eq_some_iff]
  constructor
  · rintro ⟨rest, hrest, rfl⟩
    have hsource : (String.ofList rest).toList = rest := String.toList_ofList
    rw [← String.toList_inj, String.toList_append, hsource]
    exact (List.isPrefixOf?_eq_some_iff_append_eq.mp hrest).symm
  · rintro rfl
    exact ⟨source.toList, List.isPrefixOf?_eq_some_iff_append_eq.mpr String.toList_append.symm,
      String.ofList_toList⟩

/-- A line that asks for a listing does not end the session, whatever it asks about. -/
theorem not_exits_request (source : String) : ¬ Exits (":tokens " ++ source) := by
  rintro ⟨before, after, hblank, hline⟩
  have hcolon : (before ++ "exit".toList ++ after).head? = some ':' := by
    rw [← hline, String.toList_append]
    rfl
  cases before with
  | nil => cases hcolon
  | cons c rest =>
    obtain rfl : c = ':' := Option.some.inj hcolon
    exact absurd (hblank ':' List.mem_cons_self) (by decide)

/-- The answer to a line that does not end the session. -/
def reply (line : String) : String :=
  match listingRequest? line with
  | some source => tokenListing source
  | none => (Report.ofSource line none).text

theorem reply_request (source : String) : reply (":tokens " ++ source) = tokenListing source := by
  rw [reply, listingRequest?_eq_some_iff.mpr rfl]

theorem reply_of_ne {line : String} (h : ∀ source, line ≠ ":tokens " ++ source) :
    reply line = (Report.ofSource line none).text := by
  have hnone : listingRequest? line = none :=
    Option.eq_none_iff_forall_ne_some.mpr fun source hsome =>
      h source (listingRequest?_eq_some_iff.mp hsome)
  rw [reply, hnone]

/-- A line that is reported on and has a diagnostic that is too wide to be drawn. -/
def Breaks (line : String) : Prop :=
  (∀ source, line ≠ ":tokens " ++ source) ∧
    ∃ diagnostic ∈ (parse line none).2, ¬ diagnostic.Fits line

/-- Only a long line breaks a session off. -/
theorem Breaks.size_le {line : String} (h : Breaks line) : 65535 ≤ line.utf8ByteSize := by
  obtain ⟨-, diagnostic, -, hwide⟩ := h
  exact Nat.not_lt.mp fun hlt => hwide (Diagnostic.fits_of_size_lt hlt diagnostic)

theorem respond_of_exits {line : String} (h : Exits line) : respond line = .leave "Bye!\n" :=
  if_pos (isExit_iff.mpr h)

theorem respond_of_not_exits {line : String} (h : ¬ Exits line) :
    (Breaks line → respond line = .breakOff (reply line)) ∧
      (¬ Breaks line → respond line = .answer (reply line)) := by
  rw [respond, if_neg fun hexit => h (isExit_iff.mp hexit), reply]
  cases hrequest : listingRequest? line with
  | some source =>
    rw [listingRequest?_eq_some_iff] at hrequest
    exact ⟨fun hbreaks => absurd hrequest (hbreaks.1 source), fun _ => rfl⟩
  | none =>
    have hne : ∀ source, line ≠ ":tokens " ++ source := fun source heq => by
      rw [listingRequest?_eq_some_iff.mpr heq] at hrequest
      cases hrequest
    have hverdict : (Report.ofSource line none).verdict = .brokenOff ↔ Breaks line :=
      Report.verdict_eq_brokenOff_iff.trans (and_iff_right hne).symm
    exact ⟨fun hbreaks => if_pos (hverdict.mpr hbreaks),
      fun hbreaks => if_neg (mt hverdict.mp hbreaks)⟩

end Answer

section Dialogue

/-- What ends a session, with its last words and its exit code: there is no further line, the next
one is the word `exit`, it is not the form of any text, or it has a diagnostic too wide to be drawn,
after which nothing is printed. -/
inductive Closing : List (List UInt8) → String → UInt32 → Prop where
  | inputEnds : Closing [] "" 0
  | exit {line : String} {rest : List (List UInt8)} (h : Exits line) :
      Closing (Utf8.encode line :: rest) "Bye!\n" 0
  | noText {line : List UInt8} {rest : List (List UInt8)} (h : ∀ text, line ≠ Utf8.encode text) :
      Closing (line :: rest) "" 0
  | breaksOff {line : String} {rest : List (List UInt8)} {first second : List Diagnostic}
      {diagnostic : Diagnostic} (hexits : ¬ Exits line)
      (hrequest : ∀ source, line ≠ ":tokens " ++ source)
      (hsplit : (parse line none).2 = first ++ diagnostic :: second)
      (hfirst : ∀ diagnostic ∈ first, diagnostic.Fits line) (hwide : ¬ diagnostic.Fits line) :
      Closing (Utf8.encode line :: rest)
        ("parser errors:\n" ++ String.join (first.map (·.render line))) 101

theorem Closing.dialogue_eq {rest : List (List UInt8)} {farewell : String} {code : UInt32}
    (h : Closing rest farewell code) : dialogue rest = (prompt ++ farewell, code) := by
  cases h with
  | inputEnds => rw [dialogue, String.append_empty]
  | exit h => rw [dialogue, Utf8.decode?_encode, Option.map_some, respond_of_exits h]
  | noText h =>
    have hnone : Utf8.decode? _ = none := Option.eq_none_iff_forall_ne_some.mpr fun text hsome =>
      h text (Utf8.decode?_eq_some_iff.mp hsome)
    rw [dialogue, hnone, Option.map_none, String.append_empty]
  | breaksOff hexits hrequest hsplit hfirst hwide =>
    have hbreaks : Breaks _ := ⟨hrequest, _, by simp [hsplit], hwide⟩
    rw [dialogue, Utf8.decode?_encode, Option.map_some, (respond_of_not_exits hexits).1 hbreaks,
      reply_of_ne hrequest, Report.ofSource_of_wide hsplit hfirst hwide]
    rfl

/-- A session is broken off by a long line only. -/
theorem Closing.code_eq_zero {rest : List (List UInt8)} {farewell : String} {code : UInt32}
    (h : Closing rest farewell code) (hshort : ∀ line ∈ rest, line.length < 65535) : code = 0 := by
  cases h with
  | breaksOff _ hrequest hsplit _ hwide =>
    have hbreaks : Breaks _ := ⟨hrequest, _, by simp [hsplit], hwide⟩
    have hlength := hshort _ List.mem_cons_self
    rw [Utf8.length_encode] at hlength
    exact absurd hlength (Nat.not_lt.mpr hbreaks.size_le)
  | _ => rfl

/-- A line is answered, and the session goes on with the next. -/
theorem dialogue_cons {line : String} (hexits : ¬ Exits line) (hbreaks : ¬ Breaks line)
    (rest : List (List UInt8)) :
    dialogue (Utf8.encode line :: rest) =
      (prompt ++ reply line ++ (dialogue rest).1, (dialogue rest).2) := by
  rw [dialogue, Utf8.decode?_encode, Option.map_some, (respond_of_not_exits hexits).2 hbreaks,
    String.append_assoc]

/-- So are all lines up to one that ends the session. -/
theorem dialogue_append {answered : List String}
    (h : ∀ line ∈ answered, ¬ Exits line ∧ ¬ Breaks line) (rest : List (List UInt8)) :
    dialogue (answered.map Utf8.encode ++ rest) =
      (String.join (answered.map fun line => prompt ++ reply line) ++ (dialogue rest).1,
        (dialogue rest).2) := by
  induction answered with
  | nil => simp [String.join]
  | cons line answered ih =>
    obtain ⟨⟨hexits, hbreaks⟩, hmore⟩ := List.forall_mem_cons.mp h
    rw [List.map_cons, List.cons_append, dialogue_cons hexits hbreaks, ih hmore, List.map_cons,
      String.join_cons]
    simp only [String.append_assoc]

/-- The lines of an input are those that are answered and, after these, what ends the session. -/
theorem exists_closing (cut : List (List UInt8)) :
    ∃ (answered : List String) (rest : List (List UInt8)) (farewell : String) (code : UInt32),
      cut = answered.map Utf8.encode ++ rest ∧
        (∀ line ∈ answered, ¬ Exits line ∧ ¬ Breaks line) ∧ Closing rest farewell code := by
  induction cut with
  | nil => exact ⟨[], [], _, _, rfl, List.forall_mem_nil _, .inputEnds⟩
  | cons bytes cut ih =>
    by_cases htext : ∃ line, bytes = Utf8.encode line
    · obtain ⟨line, rfl⟩ := htext
      by_cases hexits : Exits line
      · exact ⟨[], _, _, _, rfl, List.forall_mem_nil _, .exit hexits⟩
      · by_cases hbreaks : Breaks line
        · obtain ⟨hrequest, diagnostic, hmem, hwide⟩ := hbreaks
          rcases Diagnostic.forall_fits_or line (parse line none).2 with
            hfits | ⟨first, diagnostic, second, hsplit, hfirst, hwide⟩
          · exact absurd (hfits diagnostic hmem) hwide
          · exact ⟨[], _, _, _, rfl, List.forall_mem_nil _,
              .breaksOff hexits hrequest hsplit hfirst hwide⟩
        · obtain ⟨answered, rest, farewell, code, rfl, hanswered, hclosing⟩ := ih
          exact ⟨line :: answered, rest, farewell, code, rfl,
            List.forall_mem_cons.mpr ⟨⟨hexits, hbreaks⟩, hanswered⟩, hclosing⟩
    · exact ⟨[], _, _, _, rfl, List.forall_mem_nil _, .noText fun line heq => htext ⟨line, heq⟩⟩

end Dialogue

end Session

/-- What a run on a file comes to if it can be read and is a text. -/
theorem CommandLine.run_file {read : String → Except String (List UInt8)} {path source : String}
    (h : read path = .ok (Utf8.encode source)) (name : String) (user : Option String)
    (input : List UInt8) :
    let report := Report.ofSource source (some (fileName path))
    run name [path] user input read = ⟨report.verdict.code, report.text, ""⟩ := by
  have htext : fileText (read path) = .ok source := by
    rw [h]
    simp only [fileText, Utf8.decode?_encode]
  rw [run, runFile, htext]

namespace Session

open CommandLine (run fileName)

/-- A session is its two lines of banner and the answers to its lines, each after a prompt, up to
the line that ends it. It fails only if this line has a diagnostic that is too wide to be drawn,
and then the line has 65535 bytes or more. The answer to a line is what a run on a file called
`shell` prints that holds this line and nothing else, and such a run succeeds just if there are no
diagnostics, and breaks off just if one of them is too wide. A line that asks for a listing neither
ends a session nor breaks it off, and the answer to it has a line for each token and one for the
end. -/
theorem dialogue_of_input (name : String) (user : Option String) (input : List UInt8)
    (read : String → Except String (List UInt8)) :
    (∃ (answered : List String) (rest : List (List UInt8)) (farewell : String) (code : UInt32),
      (∀ cut, Cut input cut ↔ cut = answered.map Utf8.encode ++ rest) ∧
      (∀ line ∈ answered, ¬ Exits line ∧ ¬ Breaks line) ∧ Closing rest farewell code ∧
      ((∀ line ∈ rest, line.length < 65535) → code = 0) ∧
      (run name [] user input read).code = code ∧
      (run name [] user input read).out =
        "Hello " ++ user.getD "there" ++ ", this is the Monkey programming language!\n" ++
          "Feel free to type in commands\n" ++
          String.join (answered.map fun line => ">> " ++ reply line) ++ ">> " ++ farewell) ∧
    (∀ line, (∀ source, line ≠ ":tokens " ++ source) →
      ∀ path, fileName path = "shell" → ∀ other, other path = .ok (Utf8.encode line) →
        reply line = (run name [path] user input other).out ∧
          ((run name [path] user input other).code = 0 ↔ (parse line none).2 = []) ∧
          ((run name [path] user input other).code = 101 ↔ Breaks line)) ∧
    ∀ source, ¬ Exits (":tokens " ++ source) ∧ ¬ Breaks (":tokens " ++ source) ∧
      LetScript.lines (reply (":tokens " ++ source)) =
        (tokenize source none).map (·.summary.toList) ++ [[]] ∧
      (tokenize source none).getLast?.map (·.summary) = some "EOF ()" := by
  refine ⟨?_, fun line hline path hpath other hother => ?_, fun source => ?_⟩
  · obtain ⟨answered, rest, farewell, code, hcut, hanswered, hclosing⟩ :=
      exists_closing (lines input)
    have hdialogue : dialogue (lines input) =
        (String.join (answered.map fun line => ">> " ++ reply line) ++ (">> " ++ farewell),
          code) := by
      rw [hcut, dialogue_append hanswered, hclosing.dialogue_eq]
      rfl
    refine ⟨answered, rest, farewell, code, fun cut => hcut ▸ cut_iff, hanswered, hclosing,
      hclosing.code_eq_zero, ?_⟩
    rw [run, CommandLine.runSession, hdialogue]
    exact ⟨rfl, by simp only [banner, String.append_assoc]⟩
  · have hreport : Report.ofSource line (some (fileName path)) = Report.ofSource line none := by
      rw [hpath]
      rfl
    rw [CommandLine.run_file hother, hreport, reply_of_ne hline]
    exact ⟨rfl, Report.code_eq_zero_iff,
      Report.code_eq_brokenOff_iff.trans (and_iff_right hline).symm⟩
  · refine ⟨not_exits_request source, fun hbreaks => hbreaks.1 source rfl, ?_, ?_⟩
    · rw [reply_request, lines_tokenListing]
    · rw [tokenize, Lexer.tokens, List.getLast?_concat]
      rfl

/-- A sum is answered as a file with this sum is reported on, and a request by its tokens. The
session ends before its last line. -/
theorem dialogue_of_sum :
    let shown := run "monkey" ["src/shell"] none [] fun _ => .ok (Utf8.encode "1+2")
    let input := Utf8.encode "1+2\r\n:tokens a\n exit\nlost"
    let held := run "monkey" [] none input fun _ => .error ""
    reply "1+2" = shown.out ∧ shown.out = "(1 + 2)\n" ∧ shown.code = 0 ∧ held.code = 0 ∧
      held.out = "Hello there, this is the Monkey programming language!\n" ++
        "Feel free to type in commands\n" ++ ">> (1 + 2)\n" ++
        ">> Identifier (a)\nEOF ()\n" ++ ">> Bye!\n" := by
  intro shown input held
  have hsum (source : String) : "1+2" ≠ ":tokens " ++ source := by
    intro heq
    have hhead := congrArg (·.toList.head?) heq
    rw [String.toList_append] at hhead
    cases hhead
  obtain ⟨-, hanswer, -⟩ := dialogue_of_input "monkey" none [] fun _ => .error ""
  obtain ⟨hreply, hclean, -⟩ := hanswer "1+2" hsum "src/shell" (by decide +kernel)
    (fun _ => .ok (Utf8.encode "1+2")) rfl
  obtain ⟨⟨answered, rest, farewell, code, hcut, -, -, hshort, hcode, -⟩, -, -⟩ :=
    dialogue_of_input "monkey" none input fun _ => .error ""
  have hlines : lines input = answered.map Utf8.encode ++ rest := (hcut _).mp (cut_lines input)
  have hlengths : ∀ line ∈ lines input, line.length < 65535 := by decide +kernel
  refine ⟨hreply, by decide +kernel, hclean.mpr (by decide +kernel), ?_, by decide +kernel⟩
  exact hcode.trans (hshort fun line hmem =>
    hlengths line (hlines ▸ List.mem_append_right _ hmem))

/-- An operand that is missing at the end of a long line breaks the session off. -/
theorem closing_of_padded {count : Nat} (hlong : 65534 ≤ count) (hle : count < Position.maxOffset)
    (rest : List (List UInt8)) :
    Closing (Utf8.encode (padded '\r' count "-") :: rest) "parser errors:\n" 101 := by
  have hreturn : String.utf8EncodeChar '\r' = [0x0d] := rfl
  have hchars : (padded '\r' count "-").toList = List.replicate count '\r' ++ ['-'] := by
    rw [padded, String.toList_append, String.toList_ofList]
    rfl
  have hfirst : (padded '\r' count "-").toList.head? = some '\r' := by
    rw [hchars, List.head?_append, List.head?_replicate, if_neg (by omega), Option.some_or]
  have hsplit : (parse (padded '\r' count "-") none).2 =
      [] ++ ⟨.noPrefixRule .eof, .atOffset (1 + count) Lexer.defaultFile⟩ :: [] := by
    have hdash : (parse "-" none).2 = [⟨.noPrefixRule .eof, ⟨1, Lexer.defaultFile⟩⟩] := by
      decide +kernel
    rw [diagnostics_padded hreturn rfl, hdash]
    rfl
  rw [← String.append_empty (s := "parser errors:\n")]
  refine .breaksOff ?_ ?_ hsplit (List.forall_mem_nil _) ?_
  · rintro ⟨before, after, -, hexit⟩
    have hmem : 'e' ∈ (padded '\r' count "-").toList := by simp [hexit]
    simp [hchars] at hmem
  · intro source heq
    rw [heq, String.toList_append] at hfirst
    cases hfirst
  · have hfeed : '\n' ∉ (padded '\r' count "-").toList := by simp [hchars]
    have hsize : (padded '\r' count "-").utf8ByteSize = count + 1 := utf8ByteSize_padded hreturn
    have hindent : (padded '\r' count "-").toList.takeWhile Diagnostic.isIndent = [] := by
      obtain ⟨chars, heq⟩ := List.head?_eq_some_iff.mp hfirst
      rw [heq]
      exact List.takeWhile_cons_of_neg (by decide)
    rw [Diagnostic.Fits, Diagnostic.dashes, locate_of_notMem hfeed, hindent, hsize]
    simp only [Position.atOffset, List.length_nil]
    omega

/-- A line of 65535 bytes, of which the last one is an operator without an operand, makes the
session fail, although there is an answer to a line before it. -/
theorem code_of_wide_line :
    let line := padded '\r' 65534 "-"
    let held := run "monkey" [] none (Utf8.encode ("a\n" ++ line)) fun _ => .error ""
    line.utf8ByteSize = 65535 ∧ held.code = 101 ∧
      held.out = "Hello there, this is the Monkey programming language!\n" ++
        "Feel free to type in commands\n" ++ ">> a\n" ++ ">> parser errors:\n" := by
  intro line held
  have hbytes : Utf8.encode line = List.replicate 65534 0x0d ++ [0x2d] := encode_padded rfl
  have hfeed : lineFeed ∉ Utf8.encode line := by
    rw [hbytes, List.mem_append, List.mem_replicate]
    decide
  have hne : Utf8.encode line ≠ [] := by
    rw [hbytes]
    exact List.append_ne_nil_of_right_ne_nil _ (by decide)
  have hlines : lines (Utf8.encode ("a\n" ++ line)) = [Utf8.encode "a", Utf8.encode line] := by
    have hcut : lines ([0x61] ++ lineFeed :: Utf8.encode line) =
        dropReturn [0x61] :: lines (Utf8.encode line) := lines_append_lineFeed (by decide) _
    rw [lines_of_notMem hfeed, if_neg hne] at hcut
    rw [Utf8.encode_append, show Utf8.encode "a\n" = [0x61] ++ [lineFeed] by decide +kernel,
      List.append_assoc]
    exact hcut
  have hdialogue : dialogue [Utf8.encode "a", Utf8.encode line] =
      (prompt ++ reply "a" ++ (prompt ++ "parser errors:\n"), 101) := by
    have hexits : ¬ Exits "a" := by
      rw [← isExit_iff]
      decide +kernel
    have hbreaks : ¬ Breaks "a" := fun h => absurd h.size_le (by decide +kernel)
    rw [dialogue_cons hexits hbreaks,
      (closing_of_padded (Nat.le_refl _) (by decide) []).dialogue_eq]
  have hheld : held = ⟨101, banner none ++
      (prompt ++ reply "a" ++ (prompt ++ "parser errors:\n")), ""⟩ := by
    change CommandLine.runSession none _ = _
    rw [CommandLine.runSession, hlines, hdialogue]
  have hsize : line.utf8ByteSize = 65534 + "-".utf8ByteSize :=
    utf8ByteSize_padded (show String.utf8EncodeChar '\r' = [0x0d] from rfl)
  refine ⟨hsize.trans (by decide +kernel), ?_⟩
  rw [hheld]
  exact ⟨rfl, by decide +kernel⟩

end Session

end LetScript
