import LetScript.Proofs.Reachability

/-!
# Where a statement may end without a semicolon

Whether a closing brace ends the statement before it is decided by the count of open braces, which
runs along with the tokens and knows nothing of what is being read. It is asked only where whole
phrases have been read. There every brace that is open was opened by a block that is being read: as
many blocks have been called and not returned, and since the last of them was, braces were only
opened and closed again.

That is kept by each procedure, by the rules below: a procedure that goes on from such a place comes
to such a place. When it fails it leaves the blocks as they were, but not the count. The count is
right again at the next statement, since whatever is broken is skipped up to a place outside all
braces.
-/

namespace LetScript

/-- Neither a brace nor the end of the input. -/
def Kind.Braceless (kind : Kind) : Prop :=
  kind ≠ .eof ∧ kind ≠ .openCurly ∧ kind ≠ .closeCurly

instance (kind : Kind) : Decidable kind.Braceless :=
  inferInstanceAs (Decidable (kind ≠ .eof ∧ kind ≠ .openCurly ∧ kind ≠ .closeCurly))

/-- The braces that are open are those of the blocks being read, and none was left open since the
last block was called at its opening brace. -/
structure Settled (blocks : List Window) (c : Cursor) : Prop where
  openBraces_eq : c.openBraces = blocks.length
  inside : ∀ opening ∈ blocks.head?, opening.cursor.current.kind = .openCurly ∧
    ∃ tokens, opening.cursor.Takes tokens c ∧ Balanced tokens

namespace Settled

variable {blocks : List Window} {c stop : Cursor}

/-- Outside all blocks no brace is open. -/
theorem outside (h : c.openBraces = 0) : Settled [] c := ⟨h, by simp⟩

/-- Balanced tokens may be taken. -/
theorem of_takes (h : Settled blocks c) {tokens : List Token} (htakes : c.Takes tokens stop)
    (hbalanced : Balanced tokens) : Settled blocks stop := by
  refine ⟨(htakes.openBraces_of_balanced hbalanced).trans h.openBraces_eq, fun opening hmem => ?_⟩
  obtain ⟨hopening, before, htakesBefore, hbefore⟩ := h.inside opening hmem
  exact ⟨hopening, _, htakesBefore.append htakes, hbefore.append hbalanced⟩

/-- At the opening brace of a block this block is one more. -/
theorem opened (h : Settled blocks c) {opening : Window} (hopening : opening.cursor = c.advance)
    (hkind : c.peek.kind = .openCurly) : Settled (opening :: blocks) c.advance := by
  refine ⟨?_, fun opening' hmem => ?_⟩
  · rw [Cursor.advance, hkind, List.length_cons, ← h.openBraces_eq]
    rfl
  · obtain rfl := Option.some.inj hmem
    rw [hopening]
    exact ⟨hkind, [], .nil _, .nil⟩

/-- At its closing brace the block is none of those any more. -/
theorem closed (h : Settled blocks c) {opening : Window} (hopening : opening.cursor = c.advance)
    (hkind : c.peek.kind = .openCurly) (hstop : Settled (opening :: blocks) stop)
    (hclose : stop.peek.kind = .closeCurly) : Settled blocks stop.advance := by
  obtain ⟨-, tokens, htakes, hbalanced⟩ := hstop.inside opening rfl
  rw [hopening] at htakes
  have hblock := (Cursor.Takes.single (show c.peek.kind ≠ .eof by simp [hkind])).append
    (htakes.snoc (by simp [hclose]))
  exact h.of_takes hblock (.braced hkind hclose hbalanced)

/-- A closing brace that comes next closes the last block that was called. -/
theorem closingFrom_eq {opening : Window} (h : Settled (opening :: blocks) c)
    (hclose : c.peek.kind = .closeCurly) :
    closingFrom 0 opening.cursor.tokens = some c.tokens.tail := by
  obtain ⟨hopening, tokens, htakes, hbalanced⟩ := h.inside opening rfl
  obtain ⟨rest, hrest⟩ := Cursor.exists_tail_eq (show c.peek.kind ≠ .eof by simp [hclose])
  have htail := htakes.tail_eq
  cases htokens : opening.cursor.tokens with
  | nil => simp [Cursor.current, htokens, Token.endOfInput] at hopening
  | cons brace after =>
    rw [Cursor.current, htokens] at hopening
    have hkind : brace.kind = .openCurly := hopening
    rw [htokens, List.tail_cons, hrest] at htail
    rw [closingFrom, hkind, if_neg (by decide), hrest]
    exact closingFrom_eq_some_iff.mpr ⟨tokens, htail, hclose, hbalanced.braceDepth?_eq 0⟩

/-- A statement may end before a closing brace exactly if this brace closes one of the blocks. -/
theorem expectTerminator_iff (h : Settled blocks c) (hclose : c.peek.kind = .closeCurly) :
    Routine.expectTerminator.run c = (.ok (), c) ↔
      ∃ opening ∈ blocks, closingFrom 0 opening.cursor.tokens = some c.tokens.tail := by
  have hends : c.peekEndsStatement = decide (0 < blocks.length) := by
    rw [Cursor.peekEndsStatement, hclose, h.openBraces_eq]
  rw [Routine.run_expectTerminator, hends]
  cases blocks with
  | nil =>
    have hsemicolon : c.peek.kind ≠ .semicolon := by simp [hclose]
    simp [Routine.run_expectPeek_of_ne hsemicolon]
  | cons opening blocks =>
    exact iff_of_true (if_pos (by simp)) ⟨opening, List.mem_cons_self, h.closingFrom_eq hclose⟩

end Settled

namespace Machine

/-- The machine has drawn its window, holds the rules of the language, and is reading the given
blocks. -/
structure Inside (m : Machine) (blocks : List Window) : Prop where
  drawn : m.window.Drawn
  table_eq : m.table = .standard
  blocks_eq : m.blocks = blocks

/-- Whole phrases have been read up to where the machine stands. -/
structure Ready (m : Machine) (blocks : List Window) : Prop extends m.Inside blocks where
  settled : Settled blocks m.window.cursor

/-- The machine stands on the first token that has not been read, after the cursor. -/
structure At (m : Machine) (blocks : List Window) (c : Cursor) : Prop extends m.Inside blocks where
  cursor_eq : m.window.cursor = c.advance
  settled : Settled blocks c

variable {m : Machine} {blocks : List Window} {c : Cursor}

/-- Frames have nothing to do with braces. -/
theorem Inside.with_nesting (h : m.Inside blocks) (nesting : Nat) :
    ({ m with nesting } : Machine).Inside blocks :=
  ⟨h.drawn, h.table_eq, h.blocks_eq⟩

theorem Ready.with_nesting (h : m.Ready blocks) (nesting : Nat) :
    ({ m with nesting } : Machine).Ready blocks :=
  ⟨h.toInside.with_nesting nesting, h.settled⟩

theorem At.with_nesting (h : m.At blocks c) (nesting : Nat) :
    ({ m with nesting } : Machine).At blocks c :=
  ⟨h.toInside.with_nesting nesting, h.cursor_eq, h.settled⟩

theorem Inside.advance (h : m.Inside blocks) : (m.perform .advance).Inside blocks :=
  ⟨h.drawn.advance, h.table_eq, h.blocks_eq⟩

/-- After advancing the next token is the first that has not been read. -/
theorem Ready.advance (h : m.Ready blocks) : (m.perform .advance).At blocks m.window.cursor :=
  ⟨h.toInside.advance, h.drawn.cursor_advance, h.settled⟩

theorem At.peek_eq (h : m.At blocks c) : c.peek = m.window.current := by
  rw [← h.drawn.current_cursor, h.cursor_eq, Cursor.current_advance]

/-- Past a token that is no brace everything has been read again. -/
theorem At.ready (h : m.At blocks c) (hkind : m.window.current.kind.Braceless) :
    m.Ready blocks := by
  rw [← h.peek_eq] at hkind
  obtain ⟨heof, hopen, hclose⟩ := hkind
  exact ⟨h.toInside, h.cursor_eq ▸ h.settled.of_takes (.single heof) (.single hopen hclose)⟩

end Machine

/-- From the machine on, the procedure asks whether a statement ends only where the braces that are
open are those of the blocks being read. If it succeeds, `after` holds of what becomes of the
machine, and if it fails, the blocks are the same again. -/
def Procedure.Minds {α : Type} (procedure : Procedure α) (m : Machine) (blocks : List Window)
    (after : Machine → Prop) : Prop :=
  ∀ result operations, procedure m = some (result, operations) →
    (∀ asked, (asked, .askEnd) ∈ m.moments operations → asked.Ready asked.blocks) ∧
      match result with
      | .ok _ => after (m.after operations)
      | .error _ => (m.after operations).Inside blocks

namespace Procedure

namespace Minds

variable {α β γ : Type} {procedure : Procedure α} {m : Machine} {blocks : List Window}
  {after between : Machine → Prop}

theorem of_run_eq {other : Procedure α} (h : procedure m = other m)
    (hother : other.Minds m blocks after) : procedure.Minds m blocks after := by
  rwa [Minds, h]

theorem cutOff : (Procedure.cutOff : Procedure α).Minds m blocks after :=
  fun _ _ hrun => nomatch hrun

theorem pure {value : α} (h : after m) : (pure value : Procedure α).Minds m blocks after := by
  intro result operations hrun
  cases hrun
  exact ⟨fun _ hmem => absurd hmem List.not_mem_nil, h⟩

theorem refuse {diagnostic : Diagnostic} (h : m.Inside blocks) :
    (refuse diagnostic : Procedure α).Minds m blocks after := by
  intro result operations hrun
  cases hrun
  exact ⟨fun _ hmem => absurd hmem List.not_mem_nil, h⟩

theorem fail {cause : Cause} (h : m.Inside blocks) :
    (fail cause : Procedure α).Minds m blocks after :=
  .of_run_eq (current_bind _ m) (.refuse h)

/-- Nothing is asked by the other operations. -/
theorem perform {operation : Machine.Operation} (hne : operation ≠ .askEnd)
    (h : after (m.perform operation)) : (perform operation).Minds m blocks after := by
  intro result operations hrun
  cases hrun
  refine ⟨fun asked hmem => ?_, h⟩
  obtain ⟨-, rfl⟩ := Prod.mk.inj (List.mem_singleton.mp hmem)
  contradiction

/-- It may be asked where whole phrases have been read. -/
theorem askEnd (h : m.Ready blocks) :
    (Procedure.perform .askEnd).Minds m blocks (·.Ready blocks) := by
  intro result operations hrun
  cases hrun
  refine ⟨fun asked hmem => ?_, h⟩
  obtain ⟨rfl, -⟩ := Prod.mk.inj (List.mem_singleton.mp hmem)
  exact h.blocks_eq ▸ h

/-- What is done after some operations goes on from what they made of the machine. -/
theorem of_run_after {next : Procedure α} {done : List Machine.Operation}
    (hrun : procedure m = (next (m.after done)).map fun (result, more) => (result, done ++ more))
    (hdone : ∀ asked, (asked, .askEnd) ∈ m.moments done → asked.Ready asked.blocks)
    (hnext : next.Minds (m.after done) blocks after) : procedure.Minds m blocks after := by
  intro result operations hresult
  rw [hrun] at hresult
  obtain ⟨⟨last, more⟩, hlast, heq⟩ := Option.map_eq_some_iff.mp hresult
  cases heq
  obtain ⟨hmore, hafter⟩ := hnext _ _ hlast
  refine ⟨fun asked hmem => ?_, ?_⟩
  · rw [Machine.moments_append, List.mem_append] at hmem
    exact hmem.elim (hdone asked) (hmore asked)
  · rwa [Machine.after_append]

/-- The second procedure goes on where the first one stops. -/
theorem bind (h : procedure.Minds m blocks between) {next : α → Procedure β}
    (hnext : ∀ value m, between m → (next value).Minds m blocks after) :
    (procedure >>= next).Minds m blocks after := by
  rcases hfirst : procedure m with _ | ⟨diagnostic | value, done⟩
  · refine .of_run_eq ?_ .cutOff
    change Procedure.bind procedure next m = none
    rw [Procedure.bind, hfirst]
  · intro result operations hrun
    rw [bind_of_error hfirst] at hrun
    cases hrun
    exact h _ _ hfirst
  · obtain ⟨hasks, hbetween⟩ := h _ _ hfirst
    exact .of_run_after (bind_of_ok hfirst next) hasks (hnext value _ hbetween)

/-- One operation that asks nothing, and what is done next. -/
theorem perform_bind {operation : Machine.Operation} (hne : operation ≠ .askEnd)
    {next : Unit → Procedure β} (h : (next ()).Minds (m.perform operation) blocks after) :
    (Procedure.perform operation >>= next).Minds m blocks after := by
  refine .bind (.perform hne (Eq.refl (m.perform operation))) fun _ _ heq => ?_
  subst heq
  exact h

/-- A failure that is given as a value does not end the procedure. -/
theorem attempt (h : procedure.Minds m blocks between) {next : Except Diagnostic α → Procedure β}
    (hok : ∀ value m, between m → (next (.ok value)).Minds m blocks after)
    (herror : ∀ diagnostic m, m.Inside blocks → (next (.error diagnostic)).Minds m blocks after) :
    (Procedure.attempt procedure >>= next).Minds m blocks after := by
  rcases hfirst : procedure m with _ | ⟨first, done⟩
  · refine .of_run_eq ?_ .cutOff
    change Procedure.bind (Procedure.attempt procedure) next m = none
    rw [Procedure.bind, Procedure.attempt, hfirst]
    rfl
  · obtain ⟨hasks, hbetween⟩ := h _ _ hfirst
    have hattempt : Procedure.attempt procedure m = some (.ok first, done) := by
      rw [Procedure.attempt, hfirst]
      rfl
    refine .of_run_after (bind_of_ok hattempt next) hasks ?_
    cases first with
    | ok value => exact hok value _ hbetween
    | error diagnostic => exact herror diagnostic _ hbetween

/-- What is done at the end is done after a failure, too. -/
theorem endingWith {operation : Machine.Operation} {inner : List Window} (hne : operation ≠ .askEnd)
    (h : procedure.Minds m inner between)
    (hok : ∀ m : Machine, between m → after (m.perform operation))
    (herror : ∀ m : Machine, m.Inside inner → (m.perform operation).Inside blocks) :
    (procedure.endingWith operation).Minds m blocks after := by
  intro result operations hrun
  obtain ⟨⟨first, done⟩, hfirst, heq⟩ := Option.map_eq_some_iff.mp hrun
  cases heq
  obtain ⟨hasks, hresult⟩ := h _ _ hfirst
  refine ⟨fun asked hmem => ?_, ?_⟩
  · rw [Machine.moments_append, List.mem_append] at hmem
    rcases hmem with hmem | hmem
    · exact hasks asked hmem
    · obtain ⟨-, rfl⟩ := Prod.mk.inj (List.mem_singleton.mp hmem)
      contradiction
  · rw [Machine.after_append]
    cases result with
    | ok value => exact hok _ hresult
    | error diagnostic => exact herror _ hresult

theorem current (h : m.Ready blocks) : current.Minds m blocks (·.Ready blocks) :=
  .of_run_eq (current_bind _ m) (.pure h)

/-- After advancing the next token is the first that has not been read. -/
theorem advance (h : m.Ready blocks) :
    advance.Minds m blocks (fun m => ∃ c, m.At blocks c) :=
  .perform (by simp) ⟨_, h.advance⟩

/-- Past a token that is no brace whole phrases have been read. -/
theorem advance_ready (h : m.Ready blocks) {kind : Kind} (hpeek : m.window.peek.kind = kind)
    (hkind : kind.Braceless) : Procedure.advance.Minds m blocks (·.Ready blocks) :=
  .perform (by simp) (h.advance.ready (hpeek ▸ hkind))

theorem expectPeek (h : m.Ready blocks) {kind : Kind} (hkind : kind.Braceless) :
    (expectPeek kind).Minds m blocks (·.Ready blocks) := by
  refine .of_run_eq (machine_bind _ m) ?_
  split
  · exact advance_ready h ‹_› hkind
  · exact .refuse h.toInside

/-- The opening brace of a block has not been read before the block is. -/
theorem expectOpening (h : m.Ready blocks) : (Procedure.expectPeek .openCurly).Minds m blocks
    (fun m => ∃ c, m.At blocks c ∧ c.peek.kind = .openCurly) := by
  refine .of_run_eq (machine_bind _ m) ?_
  split
  · rename_i hkind
    exact .perform (by simp) ⟨_, h.advance, by rwa [h.drawn.peek_cursor]⟩
  · exact .refuse h.toInside

theorem peekEndsStatement (h : m.Ready blocks) :
    peekEndsStatement.Minds m blocks (·.Ready blocks) :=
  .bind (.askEnd h) fun _ m h => .of_run_eq (machine_bind _ m) (.pure h)

theorem peekEndsReturn (h : m.Ready blocks) : peekEndsReturn.Minds m blocks (·.Ready blocks) := by
  refine .of_run_eq (peekKind_bind _ m) ?_
  split
  · exact .pure h
  · exact .peekEndsStatement h

theorem expectTerminator (h : m.Ready blocks) :
    expectTerminator.Minds m blocks (·.Ready blocks) := by
  refine .bind (.peekEndsStatement h) fun ends m h => ?_
  split
  · exact .pure h
  · exact .expectPeek h (by decide)

/-- A frame is left in any case. -/
theorem framed (hinside : m.Inside blocks)
    (h : procedure.Minds { m with nesting := m.nesting + 1 } blocks after)
    (hleave : ∀ m : Machine, after m → after (m.perform .leave)) :
    (framed procedure).Minds m blocks after := by
  refine .of_run_eq (machine_bind _ m) ?_
  split
  · rename_i hfree
    have henter : m.perform .enter = { m with nesting := m.nesting + 1 } := if_pos hfree
    rw [← henter] at h
    exact .perform_bind (by simp) (.endingWith (by simp) h hleave fun m h => h.with_nesting _)
  · exact .fail hinside

/-- A loop that goes on after such tokens comes to places where whole phrases have been read. -/
theorem whileNext {test : Machine → Option γ} {body : γ → α → Procedure α}
    (htest : ∀ m found, m.Ready blocks → test m = some found → m.window.peek.kind.Braceless)
    (hbody : ∀ found value m, m.Ready blocks →
      (body found value).Minds m blocks (·.Ready blocks)) {rounds : Nat} {value : α}
    (h : m.Ready blocks) :
    (whileNext test body rounds value).Minds m blocks (·.Ready blocks) := by
  induction rounds generalizing value m with
  | zero => exact .cutOff
  | succ rounds ih =>
    refine .of_run_eq (machine_bind _ m) ?_
    cases hfound : test m with
    | none => exact .pure h
    | some found =>
      refine .bind (advance_ready h rfl (htest m found h hfound)) fun _ m h => ?_
      exact .bind (hbody found value m h) fun next m h => ih h

/-- So does the loop over the members. -/
theorem readMembers {member : Procedure α}
    (hmember : ∀ m, m.Ready blocks → member.Minds m blocks (·.Ready blocks)) {rounds : Nat}
    (h : m.Ready blocks) : (readMembers rounds member).Minds m blocks (·.Ready blocks) := by
  refine .of_run_eq (peekKind_bind _ m) ?_
  split
  · rename_i hclosing
    exact .bind (advance_ready h hclosing (by decide)) fun _ m h => .pure h
  · refine .bind (hmember m h) fun first m h => ?_
    refine .bind (.whileNext (fun m found _ htest => ?_) (fun _ members m h => ?_) h)
      fun members m h => ?_
    · split at htest
      · rename_i hcomma
        rw [hcomma]
        decide
      · contradiction
    · exact .bind (hmember m h) fun member m h => .pure h
    · exact .bind (.expectPeek h (by decide)) fun _ m h => .pure h

/-- Statements are read up to a closing brace, which has not been read then. -/
theorem readStmts {statement : Procedure Stmt}
    (hstatement : ∀ m c, m.At blocks c → statement.Minds m blocks (·.Ready blocks)) {rounds : Nat}
    {c : Cursor} (h : m.At blocks c) : (readStmts statement rounds).Minds m blocks
      (fun m => ∃ c, m.At blocks c ∧ c.peek.kind = .closeCurly) := by
  induction rounds generalizing m c with
  | zero => exact .cutOff
  | succ rounds ih =>
    refine .of_run_eq (current_bind _ m) ?_
    split
    · rename_i hclose
      exact .pure ⟨c, h, by rw [h.peek_eq, hclose]⟩
    · split
      · exact .fail h.toInside
      · refine .bind (hstatement m c h) fun first m h => .bind (.advance h) fun _ m h => ?_
        obtain ⟨c, h⟩ := h
        exact .bind (ih h) fun rest m h => .pure h

end Minds

end Procedure

/-- The procedures for what is nested go on from where whole phrases have been read, and come to
such places. -/
structure Procedures.Mind (inner : Procedures) : Prop where
  expr {m : Machine} {blocks : List Window} {c : Cursor} (power : Power) : m.At blocks c →
    (inner.expr power).Minds m blocks (·.Ready blocks)
  block {m : Machine} {blocks : List Window} {c : Cursor} : m.At blocks c →
    c.peek.kind = .openCurly → inner.block.Minds m blocks (·.Ready blocks)

namespace Procedures.Mind

open Procedure (Minds)

variable {inner : Procedures} {rounds : Nat} {m : Machine} {blocks : List Window} {c : Cursor}

/-- Reads an expression after the token that the machine stands on. -/
theorem advance_expr {α : Type} (h : inner.Mind) (hready : m.Ready blocks) {power : Power}
    {next : Expr → Procedure α} {after : Machine → Prop}
    (hnext : ∀ tree m, m.Ready blocks → (next tree).Minds m blocks after) :
    (Procedure.advance >>= fun _ => inner.expr power >>= next).Minds m blocks after := by
  refine .bind (.advance hready) fun _ m hat => ?_
  obtain ⟨c, hat⟩ := hat
  exact .bind (h.expr power hat) hnext

/-- Reads a block that starts with the next token. -/
theorem expectBlock {α : Type} (h : inner.Mind) (hready : m.Ready blocks)
    {next : Block → Procedure α} {after : Machine → Prop}
    (hnext : ∀ tree m, m.Ready blocks → (next tree).Minds m blocks after) :
    (Procedure.expectPeek .openCurly >>= fun _ => inner.block >>= next).Minds m blocks after := by
  refine .bind (.expectOpening hready) fun _ m hat => ?_
  obtain ⟨c, hat, hopening⟩ := hat
  exact .bind (h.block hat hopening) hnext

theorem readPrefixOp (h : inner.Mind) (hready : m.Ready blocks) :
    inner.readPrefixOp.Minds m blocks (·.Ready blocks) :=
  .bind (.current hready) fun _ _ hready => h.advance_expr hready fun _ _ hready => .pure hready

theorem readGrouping (h : inner.Mind) (hready : m.Ready blocks) :
    inner.readGrouping.Minds m blocks (·.Ready blocks) :=
  h.advance_expr hready fun _ _ hready =>
    .bind (.expectPeek hready (by decide)) fun _ _ hready => .pure hready

theorem readConditional (h : inner.Mind) (hready : m.Ready blocks) :
    inner.readConditional.Minds m blocks (·.Ready blocks) := by
  refine .bind (.current hready) fun token m hready => ?_
  refine .bind (.expectPeek hready (by decide)) fun _ m hready => ?_
  refine h.advance_expr hready fun condition m hready => ?_
  refine .bind (.expectPeek hready (by decide)) fun _ m hready => ?_
  refine h.expectBlock hready fun consequence m hready => ?_
  refine .of_run_eq (Procedure.peekKind_bind _ m) ?_
  split
  · rename_i helse
    refine .bind (.advance_ready hready helse (by decide)) fun _ m hready => ?_
    exact h.expectBlock hready fun alternative m hready => .pure hready
  · exact .pure hready

theorem readFunction (h : inner.Mind) (hready : m.Ready blocks) :
    (inner.readFunction rounds).Minds m blocks (·.Ready blocks) := by
  refine .bind (.current hready) fun token m hready => ?_
  refine .bind (.expectPeek hready (by decide)) fun _ m hready => ?_
  refine .bind (.readMembers (fun m hready => ?_) hready) fun parameters m hready => ?_
  · refine .bind (.expectPeek hready (by decide)) fun _ m hready => ?_
    exact .bind (.current hready) fun _ _ hready => .pure hready
  · exact h.expectBlock hready fun body m hready => .pure hready

theorem readArgument (h : inner.Mind) (hready : m.Ready blocks) :
    inner.readArgument.Minds m blocks (·.Ready blocks) := by
  refine .bind (.advance hready) fun _ m hat => ?_
  obtain ⟨c, hat⟩ := hat
  exact h.expr .lowest hat

theorem readCall (h : inner.Mind) (hready : m.Ready blocks) {callee : Expr} :
    (inner.readCall rounds callee).Minds m blocks (·.Ready blocks) := by
  refine .bind (.current hready) fun token m hready => ?_
  refine .bind (.readMembers (fun m hready => h.readArgument hready) hready) fun _ m hready => ?_
  exact .pure hready

theorem readInfixOp (h : inner.Mind) (hready : m.Ready blocks) {left : Expr} :
    (inner.readInfixOp left).Minds m blocks (·.Ready blocks) := by
  refine .bind (.current hready) fun token m hready => ?_
  refine .of_run_eq (Procedure.machine_bind _ m) ?_
  exact h.advance_expr hready fun right m hready => .pure hready

theorem readPrefix (h : inner.Mind) (hready : m.Ready blocks) (rule : PrefixRule) :
    (inner.readPrefix rounds rule).Minds m blocks (·.Ready blocks) := by
  cases rule with
  | identifier => exact .bind (.current hready) fun _ _ hready => .pure hready
  | integer =>
    refine .bind (.current hready) fun token m hready => ?_
    cases integerValue? token.literal with
    | none => exact .fail hready.toInside
    | some value => exact .pure hready
  | boolean => exact .bind (.current hready) fun _ _ hready => .pure hready
  | prefixOp => exact h.readPrefixOp hready
  | grouping => exact h.readGrouping hready
  | conditional => exact h.readConditional hready
  | function => exact h.readFunction hready

theorem readInfix (h : inner.Mind) (hready : m.Ready blocks) (rule : InfixRule) (left : Expr) :
    (inner.readInfix rounds rule left).Minds m blocks (·.Ready blocks) := by
  cases rule with
  | infixOp => exact h.readInfixOp hready
  | call => exact h.readCall hready

/-- No brace has a rule, and neither has the end of the input. -/
theorem readNested (h : inner.Mind) (hat : m.At blocks c) {power : Power} :
    (inner.readNested rounds power).Minds m blocks (·.Ready blocks) := by
  refine .of_run_eq (Procedure.current_bind _ m) (.of_run_eq (Procedure.machine_bind _ m) ?_)
  rw [hat.table_eq]
  cases hrule : Table.standard.prefixRule m.window.current.kind with
  | none => exact .fail hat.toInside
  | some rule =>
    have hready : m.Ready blocks := by
      refine hat.ready ⟨?_, ?_, ?_⟩ <;> rintro hkind <;> rw [hkind] at hrule <;> contradiction
    refine .bind (h.readPrefix hready rule) fun left m hready => ?_
    refine .whileNext (fun m found hready htest => ?_) (fun rule left m hready => ?_) hready
    · rw [hready.table_eq, Table.infixRuleAbove] at htest
      refine ⟨?_, ?_, ?_⟩ <;> rintro hkind <;> simp [hkind, Table.standard] at htest
    · exact h.readInfix hready rule left

theorem readBinding (h : inner.Mind) (hready : m.Ready blocks) :
    inner.readBinding.Minds m blocks (·.Ready blocks) := by
  refine .bind (.current hready) fun token m hready => ?_
  refine .bind (.expectPeek hready (by decide)) fun _ m hready => ?_
  refine .bind (.current hready) fun name m hready => ?_
  refine .bind (.expectPeek hready (by decide)) fun _ m hready => ?_
  refine h.advance_expr hready fun value m hready => ?_
  exact .bind (.expectTerminator hready) fun _ m hready => .pure hready

theorem readReturning (h : inner.Mind) (hready : m.Ready blocks) :
    inner.readReturning.Minds m blocks (·.Ready blocks) := by
  refine .bind (.current hready) fun token m hready => ?_
  refine .bind (.peekEndsReturn hready) fun ends m hready => ?_
  split
  · exact .bind (.expectTerminator hready) fun _ m hready => .pure hready
  · refine h.advance_expr hready fun value m hready => ?_
    exact .bind (.expectTerminator hready) fun _ m hready => .pure hready

theorem readExpression (h : inner.Mind) (hat : m.At blocks c) :
    inner.readExpression.Minds m blocks (·.Ready blocks) := by
  refine .of_run_eq (Procedure.current_bind _ m) ?_
  refine .bind (h.expr .lowest hat) fun value m hready => ?_
  refine .of_run_eq (Procedure.peekKind_bind _ m) ?_
  split
  · rename_i hsemicolon
    exact .bind (.advance_ready hready hsemicolon (by decide)) fun _ m hready => .pure hready
  · exact .pure hready

theorem readStmt (h : inner.Mind) (hat : m.At blocks c) :
    inner.readStmt.Minds m blocks (·.Ready blocks) := by
  refine .of_run_eq (Procedure.current_bind _ m) ?_
  split
  · rename_i hkind
    exact h.readBinding (hat.ready (hkind ▸ by decide))
  · rename_i hkind
    exact h.readReturning (hat.ready (hkind ▸ by decide))
  · exact h.readExpression hat

/-- The statements of a block are read up to its closing brace. -/
theorem readBody (h : inner.Mind) (hready : m.Ready blocks) :
    (inner.readBody rounds).Minds m blocks
      (fun m => ∃ c, m.At blocks c ∧ c.peek.kind = .closeCurly) := by
  refine .bind (.current hready) fun token m hready => .bind (.advance hready) fun _ m hat => ?_
  obtain ⟨c, hat⟩ := hat
  exact .bind (.readStmts (fun m c hat => h.readStmt hat) hat) fun _ m hclosing => .pure hclosing

/-- A block is one of those being read from its opening to its closing brace. -/
theorem readBlock (h : inner.Mind) (hat : m.At blocks c) (hopening : c.peek.kind = .openCurly) :
    (inner.readBlock rounds).Minds m blocks (·.Ready blocks) := by
  have hcalled : (m.perform .callBlock).Ready (m.window :: blocks) := by
    have hopened := hat.settled.opened hat.cursor_eq hopening
    rw [← hat.cursor_eq] at hopened
    exact ⟨⟨hat.drawn, hat.table_eq, congrArg (m.window :: ·) hat.blocks_eq⟩, hopened⟩
  refine .perform_bind (by simp) ?_
  refine .endingWith (by simp) (.framed hcalled.toInside (h.readBody ?_) ?_) ?_ ?_
  · exact hcalled.with_nesting _
  · rintro m ⟨c, hat, hclose⟩
    exact ⟨c, hat.with_nesting _, hclose⟩
  · -- The opening brace, what stands between and the closing brace are balanced together.
    rintro last ⟨stop, hlast, hclose⟩
    refine ⟨⟨hlast.drawn, hlast.table_eq, congrArg List.tail hlast.blocks_eq⟩, ?_⟩
    change Settled blocks last.window.cursor
    rw [hlast.cursor_eq]
    exact hat.settled.closed hat.cursor_eq hopening hlast.settled hclose
  · exact fun last hlast =>
      ⟨hlast.drawn, hlast.table_eq, congrArg List.tail hlast.blocks_eq⟩

end Procedures.Mind

/-- So do the procedures for expressions and blocks, however deep they go. -/
theorem procedures_mind (rounds : Nat) : (procedures rounds).Mind := by
  induction rounds with
  | zero => exact ⟨fun _ _ => .cutOff, fun _ _ => .cutOff⟩
  | succ rounds ih =>
    constructor
    · intro m blocks c power hat
      have hentered := hat.with_nesting (m.nesting + 1)
      exact .framed hat.toInside (ih.readNested hentered) fun m hready => hready.with_nesting _
    · exact fun hat hopening => ih.readBlock hat hopening

namespace Procedure

open Machine (Operation)

variable {m : Machine} {blocks : List Window}

/-- Whatever is skipped of a broken statement, it ends outside all braces or with the input. -/
theorem skip_minds {inside : Bool} {rounds : Nat} (h : m.Inside blocks) :
    (skip inside rounds).Minds m blocks
      (fun m => m.Inside blocks ∧ (m.window.current.kind = .eof ∨ m.window.openBraces = 0)) := by
  induction rounds generalizing m with
  | zero => exact .cutOff
  | succ rounds ih =>
    refine .of_run_eq (machine_bind _ m) ?_
    split
    · exact .pure ⟨h, .inl ‹_›⟩
    · split
      · rename_i hsemicolon
        exact .pure ⟨h, .inr hsemicolon.2⟩
      · split
        · rename_i hclose
          split
          · rename_i hsemicolon
            refine .perform (by simp) ⟨h.advance, .inr ?_⟩
            change m.window.peek.kind.openBraces m.window.openBraces = 0
            rw [hsemicolon, hclose.2.2]
            rfl
          · exact .pure ⟨h, .inr hclose.2.2⟩
        · exact .bind (.perform (by simp) h.advance) fun _ m h => ih h

/-- Each statement of a program starts outside all braces. -/
theorem readProgram_minds {statement : Procedure Stmt}
    (hstatement : ∀ m c, m.At [] c → statement.Minds m [] (·.Ready [])) {rounds : Nat}
    (h : m.Inside []) (hstart : m.window.current.kind = .eof ∨ ∃ c, m.At [] c) :
    (readProgram statement rounds).Minds m [] (·.Inside []) := by
  induction rounds generalizing m with
  | zero => exact .cutOff
  | succ rounds ih =>
    refine .of_run_eq (current_bind _ m) ?_
    split
    · exact .pure h
    · obtain ⟨c, hat⟩ := hstart.resolve_left ‹_›
      refine .attempt (hstatement m c hat) (fun tree m hready => ?_) fun diagnostic m hinside => ?_
      · refine .bind (.advance hready) fun _ m hat => ?_
        obtain ⟨c, hat⟩ := hat
        exact .bind (ih hat.toInside (.inr ⟨c, hat⟩)) fun trees m hinside => .pure hinside
      · have hrecorded : (m.perform (.record diagnostic)).Inside [] :=
          ⟨hinside.drawn, hinside.table_eq, hinside.blocks_eq⟩
        refine .perform_bind (by simp) (.of_run_eq (machine_bind _ _) ?_)
        refine .bind (skip_minds hrecorded) fun _ m ⟨hinside, hskipped⟩ => ?_
        refine .perform_bind (by simp) (ih hinside.advance ?_)
        -- The count starts afresh outside all braces; at the end of the input nothing is read.
        rcases hskipped with heof | hzero
        · have hnil := hinside.drawn.kind_current_iff.mp heof
          have hstays := hinside.drawn.cursor_advance
          rw [Cursor.advance_of_tokens_eq_nil hnil] at hstays
          left
          change m.window.advance.current.kind = .eof
          rwa [← hinside.drawn.advance.current_cursor, hstays, hinside.drawn.current_cursor]
        · exact .inr ⟨_, hinside.advance, hinside.drawn.cursor_advance, .outside hzero⟩

end Procedure

/-- A program is read to its end, and wherever it is asked whether a statement ends, as many braces
are open as calls for a block have not returned. So a semicolon is left out before a closing brace
exactly if the brace closes one of these blocks, whatever came before. -/
theorem terminators_of_source (source : String) (file : Option String) {rounds : Nat}
    (hrounds : nestingLimit + (Cursor.ofString source file).tokens.length + 2 ≤ rounds) :
    ∃ operations,
      Procedure.readProgram (procedures rounds).readStmt rounds (.ofString source file) =
          some (.ok (parse source file).1.statements, operations) ∧
        ((Machine.ofString source file).after operations).diagnostics = (parse source file).2 ∧
        ∀ m, (m, .askEnd) ∈ (Machine.ofString source file).moments operations →
          m.window.openBraces = m.blocks.length ∧
            (m.window.peek.kind = .closeCurly →
              (Routine.expectTerminator.run m.window.cursor = (.ok (), m.window.cursor) ↔
                ∃ opening ∈ m.blocks,
                  closingFrom 0 opening.cursor.tokens = some m.window.cursor.tokens.tail)) := by
  have hstart : (Machine.ofString source file).Inside [] :=
    ⟨Window.drawn_ofString source file, rfl, rfl⟩
  have hcursor : (Machine.ofString source file).window.cursor = .ofString source file :=
    Window.cursor_ofString source file
  have hat : (Machine.ofString source file).At [] _ :=
    ⟨hstart, hcursor.trans (Cursor.outside_ofString source file).eq_advance, .outside rfl⟩
  have hreachable : (Machine.ofString source file).Reachable source file := .start
  have hattempts : ((Machine.ofString source file).reader hreachable.nesting_le).attempts =
      sourceAttempts source file :=
    congrArg (attempts Table.standard.statement) hcursor
  obtain ⟨-, operations, hrun, hkeeps, -⟩ := hreachable.keeps rfl (hcursor ▸ hrounds)
  have hminds : (Procedure.readProgram (procedures rounds).readStmt rounds).Minds _ _ _ :=
    Procedure.readProgram_minds (fun m c hat => (procedures_mind rounds).readStmt hat) hstart
      (.inr ⟨_, hat⟩)
  refine ⟨operations, hrun.trans ?_, hkeeps.diagnostics_eq.trans ?_, fun m hmem => ?_⟩
  · rw [parse, ← hattempts]
  · rw [parse, ← hattempts]
    rfl
  · obtain ⟨hasks, -⟩ := hminds _ operations hrun
    have hready := hasks m hmem
    refine ⟨hready.settled.openBraces_eq, fun hclose => hready.settled.expectTerminator_iff ?_⟩
    rwa [hready.drawn.peek_cursor]

/-- Where it is asked whether a statement ends: the text before, the kind of the next token, the
number of open braces, and whether the statement may end there. -/
def Machine.asked : Machine × Machine.Operation → Option (String × Kind × Nat × Bool)
  | (m, .askEnd) => some (m.window.current.literal, m.window.peek.kind, m.window.openBraces,
      (Routine.expectTerminator.run m.window.cursor).1.isOk)
  | _ => none

/-- After `return` a value is to come. It may end before the brace that closes its block, and the
binding may not before one that closes none. -/
theorem terminators_of_stray_braces :
    let source := "\x7d; fn() \x7b return 1 \x7d; let a = 2 \x7d \x7b"
    let start := Machine.ofString source none
    (parse source none).1.statements.length = 1 ∧ (parse source none).2.length = 2 ∧ ∃ operations,
      Procedure.readProgram (procedures 200).readStmt 200 start =
          some (.ok (parse source none).1.statements, operations) ∧
        (start.moments operations).filterMap Machine.asked =
          [("return", .integer, 1, false), ("1", .closeCurly, 1, true),
            ("2", .closeCurly, 0, false)] ∧
        ∀ m, (m, .askEnd) ∈ start.moments operations → m.window.openBraces = m.blocks.length := by
  intro source start
  obtain ⟨operations, hrun, -, hasks⟩ :=
    terminators_of_source source none (by decide +kernel : _ ≤ 200)
  have hasked : (Procedure.readProgram (procedures 200).readStmt 200 start).map
      (fun done => (start.moments done.2).filterMap Machine.asked) =
        some [("return", .integer, 1, false), ("1", .closeCurly, 1, true),
          ("2", .closeCurly, 0, false)] := by
    decide +kernel
  rw [hrun] at hasked
  exact ⟨by decide +kernel, by decide +kernel, operations, hrun, Option.some.inj hasked,
    fun m hmem => (hasks m hmem).1⟩

end LetScript
