import LetScript.Program.Log
import LetScript.Proofs.Reachability
import LetScript.Proofs.Segments

/-!
# When each event happens

The record of a reading is put together from the attempts, each with the tokens between its ends. A
machine makes the events one after the other instead: one for each token that its lexer draws, and
one for each statement that was read or refused, before it goes on to the next statement. The two
give the same record.

While a machine stands on a token, the tokens drawn are those up to the one after it. So this is
what an event that comes then has before it, and it holds no less where a statement failed: nothing
has been skipped by then.
-/

namespace LetScript

/-- An event, and the machine that it happens to. -/
abbrev Note := Machine × Event

namespace Lexer

/-- The event of drawing a token. There is none at the end of the input. -/
def drawEvent (lexer : Lexer) : List Event :=
  if lexer.next.1.kind = .eof then [] else [.lexed lexer.next.1]

/-- It is that of the first token that is left. -/
theorem drawEvent_eq (lexer : Lexer) : lexer.drawEvent = (lexer.content.take 1).map .lexed := by
  rw [drawEvent, token_next]
  cases hcontent : lexer.content with
  | nil => rfl
  | cons token rest =>
    have hmem : token ∈ lexer.content := hcontent ▸ List.mem_cons_self
    exact if_neg (kind_ne_eof_of_mem_content hmem)

/-- The events of drawing the two tokens of a window. -/
def firstTwo (lexer : Lexer) : List Event := lexer.drawEvent ++ lexer.next.2.drawEvent

theorem firstTwo_eq (lexer : Lexer) : lexer.firstTwo = (lexer.content.take 2).map .lexed := by
  rw [firstTwo, drawEvent_eq, drawEvent_eq, content_next, ← List.map_append]
  rcases lexer.content with _ | ⟨_, _ | _⟩ <;> rfl

end Lexer

/-- What is left to draw is what comes after the two tokens of the window. -/
theorem Window.Drawn.content_lexer {window : Window} (h : window.Drawn) :
    window.lexer.content = window.cursor.tokens.drop 2 := by
  obtain ⟨lexer, depth, rfl⟩ := h
  rw [cursor_draw, draw, Lexer.content_next, Lexer.content_next, ← List.drop_one, ← List.drop_one,
    List.drop_drop]

namespace Machine

/-- The notes of the tokens that are drawn by operations. -/
def draws (m : Machine) (operations : List Operation) : List Note :=
  (m.moments operations).flatMap fun (m, operation) =>
    match operation with
    | .advance => m.window.lexer.drawEvent.map (m, ·)
    | _ => []

end Machine

namespace Procedure

/-- The notes of reading statements until the machine stands on the end of the input. -/
def noteProgram (statement : Procedure Stmt) : Nat → Machine → Option (List Note)
  | 0, _ => none
  | rounds + 1, m =>
    if m.window.current.kind = .eof then
      some []
    else do
      let (result, done) ← statement m
      let stop := m.after done
      let (_, more) ← goOn rounds result stop
      let notes ← noteProgram statement rounds (stop.after more)
      return m.draws done ++ (stop, .ofResult result) :: (stop.draws more ++ notes)

end Procedure

/-- The notes tell how tokens are drawn, from those left at first to those left at last. There is
one for each token that is drawn, when it is; the others are between these, and each has a machine
that has drawn as many tokens as were told before. -/
inductive Tells : List Token → List Note → List Token → Prop where
  | nil {left : List Token} : Tells left [] left
  | lexed {m : Machine} {token : Token} {left last : List Token} {notes : List Note} :
      m.window.lexer.content = token :: left → Tells left notes last →
        Tells (token :: left) ((m, .lexed token) :: notes) last
  | coarse {m : Machine} {event : Event} {left last : List Token} {notes : List Note} :
      event.detail = .coarse → m.window.lexer.content = left → Tells left notes last →
        Tells left ((m, event) :: notes) last

namespace Event

/-- The events of the finer level. -/
def fine (events : List Event) : List Event := events.filter (·.detail = .fine)

theorem fine_append (first second : List Event) :
    fine (first ++ second) = fine first ++ fine second :=
  List.filter_append _ _

theorem fine_map_lexed (tokens : List Token) : fine (tokens.map lexed) = tokens.map lexed := by
  refine List.filter_eq_self.mpr fun event hmem => ?_
  obtain ⟨token, -, rfl⟩ := List.mem_map.mp hmem
  rfl

theorem shown_map_lexed (tokens : List Token) : shown .coarse (tokens.map lexed) = [] := by
  refine List.filter_eq_nil_iff.mpr fun event hmem => ?_
  obtain ⟨token, -, rfl⟩ := List.mem_map.mp hmem
  exact fun hdetail => nomatch of_decide_eq_true hdetail

end Event

namespace Tells

variable {left between last : List Token} {notes more : List Note}

theorem append (h : Tells left notes between) (hmore : Tells between more last) :
    Tells left (notes ++ more) last := by
  induction h with
  | nil => exact hmore
  | lexed hcontent _ ih => exact .lexed hcontent (ih hmore)
  | coarse hdetail hcontent _ ih => exact .coarse hdetail hcontent (ih hmore)

/-- What they tell up to a note, and from there on. -/
theorem exists_split (h : Tells left (notes ++ more) last) :
    ∃ between, Tells left notes between ∧ Tells between more last := by
  induction notes generalizing left with
  | nil => exact ⟨left, .nil, h⟩
  | cons note notes ih =>
    cases h with
    | lexed hcontent hrest =>
      obtain ⟨between, hnotes, hmore⟩ := ih hrest
      exact ⟨between, .lexed hcontent hnotes, hmore⟩
    | coarse hdetail hcontent hrest =>
      obtain ⟨between, hnotes, hmore⟩ := ih hrest
      exact ⟨between, .coarse hdetail hcontent hnotes, hmore⟩

/-- The tokens drawn are those with a note. -/
theorem map_lexed_eq (h : Tells left notes last) :
    left.map Event.lexed = Event.fine (notes.map Prod.snd) ++ last.map Event.lexed := by
  induction h with
  | nil => rfl
  | lexed _ _ ih => exact congrArg (_ :: ·) ih
  | coarse hdetail _ _ ih =>
    rw [ih, List.map_cons, Event.fine, Event.fine, List.filter_cons_of_neg (by simp [hdetail])]

/-- The machine of a note has drawn the tokens with a note before it. -/
theorem content_eq {m : Machine} {event : Event} (h : Tells left ((m, event) :: notes) last) :
    m.window.lexer.content = left := by
  cases h with
  | lexed hcontent => exact hcontent
  | coarse _ hcontent => exact hcontent

end Tells

namespace Machine

/-- The notes of operations tell what they draw. -/
theorem tells_draws (m : Machine) (operations : List Operation) :
    Tells m.window.lexer.content (m.draws operations)
      (m.after operations).window.lexer.content := by
  induction operations generalizing m with
  | nil => exact .nil
  | cons operation rest ih =>
    have hrest := ih (m.perform operation)
    cases operation with
    | advance =>
      have hnext : (m.perform .advance).window.lexer.content = m.window.lexer.content.tail :=
        m.window.lexer.content_next
      rw [hnext] at hrest
      change Tells _ (m.window.lexer.drawEvent.map (m, ·) ++ (m.perform .advance).draws rest) _
      rw [Lexer.drawEvent_eq]
      cases hcontent : m.window.lexer.content with
      | nil => rwa [hcontent] at hrest
      | cons token left =>
        rw [hcontent] at hrest
        exact .lexed hcontent hrest
    | enter =>
      have hwindow : (m.perform .enter).window = m.window := by
        rw [perform]
        split <;> rfl
      rwa [hwindow] at hrest
    | _ => exact hrest

/-- And nothing else. -/
theorem detail_of_mem_draws {m : Machine} {operations : List Operation} {note : Note}
    (hmem : note ∈ m.draws operations) : note.2.detail = .fine := by
  obtain ⟨⟨m, operation⟩, -, hmem⟩ := List.mem_flatMap.mp hmem
  cases operation with
  | advance =>
    obtain ⟨event, hevent, rfl⟩ := List.mem_map.mp hmem
    rw [Lexer.drawEvent_eq] at hevent
    obtain ⟨token, -, rfl⟩ := List.mem_map.mp hevent
    rfl
  | _ => exact absurd hmem List.not_mem_nil

/-- The events of operations are those of the tokens that the cursor passes. -/
theorem map_snd_draws {m : Machine} {operations : List Operation} (hdrawn : m.window.Drawn)
    (hstop : (m.after operations).window.Drawn) :
    (m.draws operations).map Prod.snd =
      Event.drawn m.window.cursor (m.after operations).window.cursor := by
  have hfine : Event.fine ((m.draws operations).map Prod.snd) =
      (m.draws operations).map Prod.snd := by
    refine List.filter_eq_self.mpr fun event hmem => ?_
    obtain ⟨note, hnote, rfl⟩ := List.mem_map.mp hmem
    exact decide_eq_true (detail_of_mem_draws hnote)
  have htells := (m.tells_draws operations).map_lexed_eq
  rw [hfine, hdrawn.content_lexer, hstop.content_lexer] at htells
  have hlength := congrArg List.length htells
  simp only [List.length_append, List.length_map, List.length_drop] at hlength
  rw [Event.drawn, List.map_take, htells, List.take_append, List.take_of_length_le, List.length_map,
    List.take_eq_nil_iff.mpr, List.append_nil]
  · -- Where fewer than two tokens are left, all that were left are drawn.
    by_cases hleft : (m.after operations).window.cursor.tokens.length ≤ 2
    · exact .inr (by rw [List.drop_eq_nil_of_le hleft, List.map_nil])
    · exact .inl (by omega)
  · rw [List.length_map]
    omega

end Machine

/-- The notes of statements that were read or refused, with the place of each. -/
def ends (notes : List Note) : List (Cursor × Event) :=
  (notes.filter (·.2.detail = .coarse)).map fun note => (note.1.window.cursor, note.2)

theorem ends_append (notes more : List Note) : ends (notes ++ more) = ends notes ++ ends more := by
  rw [ends, List.filter_append, List.map_append, ends, ends]

theorem shown_map_snd (notes : List Note) :
    Event.shown .coarse (notes.map Prod.snd) = (ends notes).map Prod.snd := by
  rw [Event.shown, ends, List.filter_map, List.map_map]
  rfl

/-- The notes are those of the attempts, and tell how the tokens left are drawn. -/
structure Noted (found : List Attempt) (left : List Token) (notes : List Note) (last : List Token) :
    Prop where
  tells : Tells left notes last
  events_eq : notes.map Prod.snd = found.flatMap Event.ofAttempt
  ends_eq : ends notes = found.map fun attempt => (attempt.stop, .ofResult attempt.result)
  drawn : ∀ note ∈ notes, note.2.detail = .coarse → note.1.window.Drawn

namespace Noted

theorem nil (left : List Token) : Noted [] left [] left :=
  ⟨.nil, rfl, rfl, List.forall_mem_nil _⟩

theorem append {found more : List Attempt} {left between last : List Token}
    {notes notes' : List Note} (h : Noted found left notes between)
    (hmore : Noted more between notes' last) :
    Noted (found ++ more) left (notes ++ notes') last where
  tells := h.tells.append hmore.tells
  events_eq := by rw [List.map_append, h.events_eq, hmore.events_eq, List.flatMap_append]
  ends_eq := by rw [ends_append, h.ends_eq, hmore.ends_eq, List.map_append]
  drawn := List.forall_mem_append.mpr ⟨h.drawn, hmore.drawn⟩

/-- The notes of one attempt: those of the tokens up to where it stops, that of its result, and
those of the tokens up to the next attempt. -/
theorem attempt {attempt : Attempt} {m : Machine} {done more : List Machine.Operation}
    (hstart : m.window.Drawn) (hstop : (m.after done).window.Drawn)
    (hnext : ((m.after done).after more).window.Drawn) (hstarts : m.window.cursor = attempt.start)
    (hstops : (m.after done).window.cursor = attempt.stop)
    (hgoes : ((m.after done).after more).window.cursor = attempt.next) :
    Noted [attempt] m.window.lexer.content
      (m.draws done ++ (m.after done, .ofResult attempt.result) :: (m.after done).draws more)
      ((m.after done).after more).window.lexer.content := by
  have hdetail : (Event.ofResult attempt.result).detail = .coarse := by
    cases attempt.result <;> rfl
  have hends (m : Machine) (operations : List Machine.Operation) :
      ends (m.draws operations) = [] := by
    rw [ends, List.filter_eq_nil_iff.mpr, List.map_nil]
    intro note hmem
    simp [Machine.detail_of_mem_draws hmem]
  constructor
  · exact (m.tells_draws done).append (.coarse hdetail rfl ((m.after done).tells_draws more))
  · rw [List.map_append, List.map_cons, Machine.map_snd_draws hstart hstop,
      Machine.map_snd_draws hstop hnext, hstarts, hstops, hgoes]
    exact (List.flatMap_singleton _ _).symm
  · rw [ends_append, hends, ← List.singleton_append, ends_append, hends]
    simp [ends, hdetail, hstops]
  · intro note hmem hcoarse
    have hdraws (m : Machine) (operations : List Machine.Operation) :
        note ∉ m.draws operations := fun hdraw => by
      simp [Machine.detail_of_mem_draws hdraw] at hcoarse
    have hlater := (List.mem_append.mp hmem).resolve_left (hdraws _ _)
    obtain rfl := (List.mem_cons.mp hlater).resolve_right (hdraws _ _)
    exact hstop

end Noted

namespace Procedure

variable {m : Machine} {scope : Scope}

/-- One round: the notes of an attempt, and those that the machine makes from there on. -/
theorem noteProgram_succ {procedure : Procedure Stmt} {statement : Routine Stmt}
    (h : procedure.Agrees statement scope) {rounds : Nat} (hin : m.In scope)
    (hleft : m.window.cursor.tokens ≠ []) (hrounds : m.window.cursor.tokens.length < rounds) :
    ∃ notes next, next.In scope ∧
      next.window.cursor = (Attempt.ofCursor statement m.window.cursor).next ∧
      Noted [.ofCursor statement m.window.cursor] m.window.lexer.content notes
        next.window.lexer.content ∧
      ∀ more, noteProgram procedure rounds next = some more →
        noteProgram procedure (rounds + 1) m = some (notes ++ more) := by
  obtain ⟨done, window, hrun, hafter, hdrawn, hcursor⟩ := h m hin
  let attempt := Attempt.ofCursor statement m.window.cursor
  have hstop := statement.length_tokens_run_le m.window.cursor
  have hless := Attempt.length_tokens_next_lt statement hleft
  have hwindow : (m.after done).window = window := by rw [hafter]
  rw [← hwindow] at hdrawn hcursor
  obtain ⟨more, next, hgo, hmore, hnext, hgoes⟩ :=
    goOn_records attempt hdrawn hcursor (Nat.lt_of_le_of_lt hstop hrounds)
  have hlast : ((m.after done).after more).window = next := by rw [hmore]
  rw [← hlast] at hnext hgoes
  refine ⟨_, (m.after done).after more, ⟨hnext, ?_, ?_, ?_⟩, hgoes,
    .attempt hin.drawn hdrawn hnext rfl hcursor hgoes, fun notes hnotes => ?_⟩
  · rw [hmore, hafter, ← hin.table_eq]
  · rw [hmore, hafter, ← hin.nesting_eq]
  · rw [hgoes]
    exact Nat.le_of_lt (Nat.lt_of_lt_of_le hless hin.length_le)
  · rw [noteProgram, if_neg (mt hin.drawn.kind_current_iff.mp hleft), hrun]
    change (goOn rounds attempt.result (m.after done) >>= _) = _
    rw [hgo]
    change (noteProgram procedure rounds ((m.after done).after more) >>= _) = _
    rw [hnotes, List.append_assoc, List.cons_append]
    rfl

/-- The notes of a program are those of its attempts. -/
theorem noteProgram_eq {procedure : Procedure Stmt} {statement : Routine Stmt}
    (h : procedure.Agrees statement scope) {rounds : Nat} (hin : m.In scope)
    (hrounds : m.window.cursor.tokens.length + 1 < rounds) :
    ∃ notes, noteProgram procedure rounds m = some notes ∧
      Noted (attempts statement m.window.cursor) m.window.lexer.content notes [] := by
  induction rounds generalizing m with
  | zero => contradiction
  | succ rounds ih =>
    by_cases hnil : m.window.cursor.tokens = []
    · rw [noteProgram, if_pos (hin.drawn.kind_current_iff.mpr hnil), attempts_of_tokens_eq_nil hnil]
      rw [hin.drawn.content_lexer, hnil]
      exact ⟨[], rfl, .nil []⟩
    · have hless := Attempt.length_tokens_next_lt statement hnil
      obtain ⟨first, next, hnext, hcursor, hfirst, hrun⟩ :=
        noteProgram_succ h hin hnil (Nat.lt_of_succ_lt_succ hrounds)
      rw [← hcursor] at hless
      obtain ⟨notes, hnotes, hrest⟩ := ih hnext (by omega)
      rw [hcursor] at hrest
      rw [attempts_of_tokens_ne_nil hnil]
      exact ⟨first ++ notes, hrun notes hnotes, hfirst.append hrest⟩

end Procedure

namespace Event

/-- The statement that was read. -/
def statement? : Event → Option Stmt
  | parsed statement => some statement
  | _ => none

/-- The diagnostic that was made. -/
def diagnostic? : Event → Option Diagnostic
  | refused diagnostic => some diagnostic
  | _ => none

/-- The statements and the diagnostics are told by the coarser events, which are those of the
attempts. -/
theorem of_shown_coarse {events : List Event} {found : List Attempt}
    (h : shown .coarse events = found.map (ofResult ·.result)) :
    events.filterMap statement? = (Attempt.program found).statements ∧
      events.filterMap diagnostic? = Attempt.diagnostics found := by
  have hstatement : events.filterMap statement? = (shown .coarse events).filterMap statement? := by
    rw [shown, List.filterMap_filter]
    congr 1
    funext event
    cases event <;> rfl
  have hdiagnostic :
      events.filterMap diagnostic? = (shown .coarse events).filterMap diagnostic? := by
    rw [shown, List.filterMap_filter]
    congr 1
    funext event
    cases event <;> rfl
  rw [hstatement, hdiagnostic, h, List.filterMap_map, List.filterMap_map]
  constructor
  · refine List.filterMap_congr fun attempt _ => ?_
    simp only [Function.comp, Attempt.statement?]
    cases attempt.result <;> rfl
  · refine List.filterMap_congr fun attempt _ => ?_
    simp only [Function.comp, Attempt.diagnostic?]
    cases attempt.result <;> rfl

end Event

/-- The tokens at the front of a source without the end of the input. -/
theorem filter_take_tokenize (source : String) (file : Option String) (n : Nat) :
    ((tokenize source file).take n).filter (·.kind ≠ .eof) =
      (Lexer.ofString source file).content.take n := by
  have hcontent : ∀ token ∈ (Lexer.ofString source file).content.take n, token.kind ≠ .eof :=
    fun token hmem => Lexer.kind_ne_eof_of_mem_content (List.mem_of_mem_take hmem)
  rw [tokenize, Lexer.tokens, List.take_append, List.filter_append,
    List.filter_eq_self.mpr fun token hmem => decide_eq_true (hcontent token hmem),
    List.filter_eq_nil_iff.mpr, List.append_nil]
  intro token hmem
  rw [List.mem_singleton.mp (List.mem_of_mem_take hmem)]
  exact fun hkind => of_decide_eq_true hkind rfl

/-- The event is that of an attempt, and the machine stands where this one stops: on the n-th token
of the source. -/
structure HappensAt (source : String) (file : Option String) (before : List Attempt)
    (attempt : Attempt) (m : Machine) (event : Event) (n : Nat) : Prop where
  event_eq : event = .ofResult attempt.result
  message_eq : event.message =
    match attempt.result with
    | .ok tree => "parsed statement `" ++ tree.text ++ "`"
    | .error diagnostic => "recorded diagnostic: " ++ diagnostic.message
  /-- The attempt starts after the tokens that belong to those before. -/
  start_eq : (Lexer.ofString source file).content =
    (before.map Attempt.extent).flatten ++ attempt.start.tokens
  /-- The reading has stopped there, and nothing is skipped yet. -/
  run_eq : Table.standard.statement.run attempt.start = (attempt.result, m.window.cursor)
  stands : m.window.StandsAt source file n
  lt_length : n < (tokenize source file).length
  /-- A statement that was read is derived from the tokens up to this one. -/
  derives : ∀ tree, attempt.result = .ok tree →
    (tokenize source file).take (n + 1) = (before.map Attempt.extent).flatten ++ attempt.tokens ∧
      ∃ nesting, Derives (.stmt false m.window.peek.kind tree) attempt.tokens nesting

/-- The tokens of a source up to the one that an attempt stops on are those before it and its
own. -/
theorem take_tokenize_of_stop {source : String} {file : Option String} {passed : List Token}
    {attempt : Attempt} {n : Nat}
    (hstart : (Lexer.ofString source file).content = passed ++ attempt.start.tokens)
    (hstop : attempt.start.Reaches attempt.stop)
    (hleft : attempt.stop.tokens = (Lexer.ofString source file).content.drop n)
    (hne : attempt.stop.tokens ≠ []) :
    (tokenize source file).take (n + 1) = passed ++ attempt.tokens := by
  have hgoes : attempt.start.tokens =
      attempt.tokens ++ (Lexer.ofString source file).content.drop (n + 1) := by
    rw [hstop.through_append, Cursor.tokens_advance, hleft, List.tail_drop]
    rfl
  have hlt : n < (Lexer.ofString source file).content.length := by
    rwa [hleft, Ne, List.drop_eq_nil_iff, Nat.not_le] at hne
  rw [hgoes, ← List.append_assoc] at hstart
  rw [tokenize, Lexer.tokens, List.take_append_of_le_length hlt]
  refine (List.append_left_inj ((Lexer.ofString source file).content.drop (n + 1))).mp ?_
  rw [List.take_append_drop, ← hstart]

/-- Where a machine stands when an attempt stops. -/
theorem exists_happensAt {source : String} {file : Option String} {before after : List Attempt}
    {attempt : Attempt} {m : Machine}
    (h : sourceAttempts source file = before ++ attempt :: after) (hdrawn : m.window.Drawn)
    (hcursor : m.window.cursor = attempt.stop) :
    ∃ n, m.window.cursor.tokens = (Lexer.ofString source file).content.drop n ∧
      HappensAt source file before attempt m (.ofResult attempt.result) n := by
  have hmem : attempt ∈ sourceAttempts source file := by simp [h]
  obtain ⟨houtside, hattempt⟩ := outside_of_mem_sourceAttempts hmem
  obtain ⟨hreaches, hrest⟩ := of_attempts_eq_append h
  have hstop : attempt.start.Reaches attempt.stop := by
    rw [hattempt]
    exact Attempt.reaches_stop _ _
  obtain ⟨n, hle, hn⟩ := (hreaches.trans hstop).exists_iterate_le
  have hleft : attempt.stop.tokens = (Lexer.ofString source file).content.drop n := by
    rw [hn, Cursor.tokens_iterate]
    rfl
  have hstart : (Lexer.ofString source file).content =
      (before.map Attempt.extent).flatten ++ attempt.start.tokens := by
    rw [tokens_eq_flatten attempt.start, hrest, ← List.flatten_append, ← List.map_append, ← h]
    exact tokens_eq_flatten (.ofString source file)
  refine ⟨n, hcursor ▸ hleft, rfl, ?_, hstart, ?_, ?_, ?_, fun tree hresult => ?_⟩
  · cases attempt.result <;> rfl
  · rw [hcursor]
    conv_rhs => rw [hattempt]
    rfl
  · exact hdrawn.standsAt (hcursor ▸ Cursor.standsAt_iterate hn)
  · rw [tokenize, Lexer.tokens, List.length_append]
    exact Nat.lt_succ_of_le hle
  · obtain ⟨⟨nesting, -, hderives⟩, htakes⟩ := Attempt.derives_of_result hattempt houtside hresult
    obtain ⟨init, htokens⟩ := Attempt.exists_tokens_eq hattempt houtside hresult
    have hne := htakes.stop_ne_nil (by simp [htokens])
    rw [← hdrawn.peek_cursor, hcursor]
    exact ⟨take_tokenize_of_stop hstart hstop hleft hne, nesting, hderives⟩

/-- Up to an event of an attempt, the notes are those of the attempts before and of the tokens up to
the one after the place where it happens. -/
theorem Noted.exists_of_split {source : String} {file : Option String} {front rest : List Note}
    {m : Machine} {event : Event} {last : List Token}
    (h : Noted (sourceAttempts source file) ((Lexer.ofString source file).content.drop 2)
      (front ++ (m, event) :: rest) last) (hdetail : event.detail = .coarse) :
    ∃ before attempt after n, sourceAttempts source file = before ++ attempt :: after ∧
      Event.shown .coarse (front.map Prod.snd) = before.map (.ofResult ·.result) ∧
      Event.fine ((Lexer.ofString source file).firstTwo ++ front.map Prod.snd) =
        (((tokenize source file).take (n + 2)).filter (·.kind ≠ .eof)).map .lexed ∧
      HappensAt source file before attempt m event n := by
  obtain ⟨between, hfront, hrest⟩ := h.tells.exists_split
  have hdrawn := h.drawn (m, event) (by simp) hdetail
  have hends := h.ends_eq
  rw [ends_append, show ends ((m, event) :: rest) = (m.window.cursor, event) :: ends rest by
    simp [ends, hdetail]] at hends
  obtain ⟨before, others, hattempts, hbefore, hothers⟩ := List.map_eq_append_iff.mp hends.symm
  obtain ⟨attempt, after, rfl, hattempt, -⟩ := List.map_eq_cons_iff.mp hothers
  obtain ⟨hstop, rfl⟩ := Prod.mk.inj hattempt
  obtain ⟨n, htokens, hhappens⟩ := exists_happensAt hattempts hdrawn hstop.symm
  refine ⟨before, attempt, after, n, hattempts, ?_, ?_, hhappens⟩
  · rw [shown_map_snd, ← hbefore, List.map_map]
    rfl
  · have hbetween : between = (Lexer.ofString source file).content.drop (n + 2) := by
      rw [← hrest.content_eq, hdrawn.content_lexer, htokens, List.drop_drop]
    have hpassed := hfront.map_lexed_eq
    rw [hbetween] at hpassed
    rw [filter_take_tokenize, Event.fine_append, Lexer.firstTwo_eq, Event.fine_map_lexed]
    refine (List.append_left_inj
      (((Lexer.ofString source file).content.drop (n + 2)).map .lexed)).mp ?_
    rw [List.append_assoc, ← hpassed, ← List.map_append, ← List.map_append,
      List.take_append_drop, List.take_append_drop]

/-- A machine that draws its tokens on demand makes the record of a source event by event. There is
one event for each token, in order, and one for each statement or diagnostic, in the order of the
attempts. When such a one happens the machine stands where the attempt stops, on the last token of
the statement or where the reading failed; the tokens told before are those up to the next one. -/
theorem notes_of_source (source : String) (file : Option String) {rounds : Nat}
    (hrounds : nestingLimit + (Cursor.ofString source file).tokens.length + 2 ≤ rounds) :
    ∃ notes : List Note,
      Procedure.noteProgram (procedures rounds).readStmt rounds (.ofString source file) =
        some notes ∧
      log source file = (Lexer.ofString source file).firstTwo ++ notes.map Prod.snd ∧
      Event.fine (log source file) =
        ((tokenize source file).filter (·.kind ≠ .eof)).map .lexed ∧
      Event.shown .coarse (log source file) =
        (sourceAttempts source file).map (.ofResult ·.result) ∧
      (log source file).filterMap Event.statement? = (parse source file).1.statements ∧
      (log source file).filterMap Event.diagnostic? = (parse source file).2 ∧
      ∀ front m event rest, notes = front ++ (m, event) :: rest → event.detail = .coarse →
        ∃ before attempt after n, sourceAttempts source file = before ++ attempt :: after ∧
          Event.shown .coarse (front.map Prod.snd) = before.map (.ofResult ·.result) ∧
          Event.fine ((Lexer.ofString source file).firstTwo ++ front.map Prod.snd) =
            (((tokenize source file).take (n + 2)).filter (·.kind ≠ .eof)).map .lexed ∧
          HappensAt source file before attempt m event n := by
  let m := Machine.ofString source file
  have hcursor : m.window.cursor = .ofString source file := Window.cursor_ofString source file
  have hin : m.In ⟨.standard, 0, (Cursor.ofString source file).tokens.length⟩ :=
    ⟨Window.drawn_ofString source file, rfl, rfl, by rw [hcursor]⟩
  have hagrees : (procedures rounds).readStmt.Agrees Table.standard.statement
      ⟨.standard, 0, (Cursor.ofString source file).tokens.length⟩ :=
    Reading.agrees rfl (Nat.zero_le _) hrounds .stmt
  have hleft : m.window.cursor.tokens.length + 1 < rounds := by
    rw [hcursor]
    omega
  obtain ⟨notes, hnotes, hnoted⟩ := Procedure.noteProgram_eq hagrees hin hleft
  have hcontent : m.window.lexer.content = (Lexer.ofString source file).content.drop 2 := by
    rw [hin.drawn.content_lexer, hcursor]
    rfl
  rw [hcursor, hcontent] at hnoted
  have hlog : log source file = (Lexer.ofString source file).firstTwo ++ notes.map Prod.snd := by
    rw [hnoted.events_eq, Lexer.firstTwo_eq]
    rfl
  have hcoarse : Event.shown .coarse (log source file) =
      (sourceAttempts source file).map (.ofResult ·.result) := by
    rw [hlog, Lexer.firstTwo_eq, Event.shown, List.filter_append]
    change Event.shown .coarse _ ++ Event.shown .coarse _ = _
    rw [Event.shown_map_lexed, List.nil_append, shown_map_snd, hnoted.ends_eq, List.map_map]
    rfl
  obtain ⟨hstatements, hdiagnostics⟩ := Event.of_shown_coarse hcoarse
  refine ⟨notes, hnotes, hlog, ?_, hcoarse, hstatements, hdiagnostics, ?_⟩
  · have htells := hnoted.tells.map_lexed_eq
    rw [List.map_nil, List.append_nil] at htells
    have hall := filter_take_tokenize source file (tokenize source file).length
    rw [List.take_length, List.take_of_length_le (by simp [tokenize, Lexer.tokens])] at hall
    rw [hlog, Event.fine_append, Lexer.firstTwo_eq, Event.fine_map_lexed, ← htells, hall,
      ← List.map_append, List.take_append_drop]
  · rintro front m event rest rfl hdetail
    exact hnoted.exists_of_split hdetail

/-- The record of a binding without a name, which is refused at `let` with `=` the last token drawn,
and of a name after it. -/
theorem notes_of_nameless_binding :
    let source := "let = 1; y"
    nestingLimit + (Cursor.ofString source none).tokens.length + 2 ≤ 200 ∧
      (log source none).map Event.message =
        ["lexed Let \"let\"", "lexed Assignment \"=\"",
          "recorded diagnostic: expected next token to be Identifier, got Assignment instead",
          "lexed Integer \"1\"", "lexed Semicolon \";\"", "lexed Identifier \"y\"",
          "parsed statement `y`"] ∧
      ∃ notes : List Note,
        Procedure.noteProgram (procedures 200).readStmt 200 (.ofString source none) = some notes ∧
        log source none = (Lexer.ofString source none).firstTwo ++ notes.map Prod.snd := by
  intro source
  have hrounds : nestingLimit + (Cursor.ofString source none).tokens.length + 2 ≤ 200 := by
    decide +kernel
  obtain ⟨notes, hnotes, hlog, -⟩ := notes_of_source source none hrounds
  exact ⟨hrounds, by decide +kernel, notes, hnotes, hlog⟩

end LetScript
