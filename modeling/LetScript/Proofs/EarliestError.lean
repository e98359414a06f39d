import LetScript.Proofs.Segments
import LetScript.Proofs.Viability

/-!
# Errors are found as early as possible

The diagnostic of a statement stands at the first token that makes the statement hopeless. What
comes before this token is the front of some statement of the grammar, where frames may be nested
as deeply as one likes. With the token it is no such front any more, unless the diagnostic is that
too many frames are nested; and at the end of the input what comes before it is no whole statement.

For the second half it is enough that the routine fails whatever follows the token: were there a
statement with this front, the routine would read it or find it nested too deeply.
-/

namespace LetScript

/-- The tokens are those of a statement that stands in no block, whatever comes after it. -/
def IsTopLevel (tokens : List Token) : Prop :=
  ∃ next tree nesting, Derives (.stmt false next tree) tokens nesting

/-- A statement that stands in no block may start with these tokens. -/
def Viable (front : List Token) : Prop := ∃ more, IsTopLevel (front ++ more)

/-- A whole statement is not refused, except for the depth of its nesting. -/
theorem IsTopLevel.result_ne_error {tokens : List Token} (h : IsTopLevel tokens) {c : Cursor}
    (htail : c.tokens.tail = tokens) (hbraces : c.openBraces = 0) {diagnostic : Diagnostic}
    (hcause : diagnostic.cause ≠ .nestingTooDeep nestingLimit) :
    (Table.standard.statement.run c.advance).1 ≠ .error diagnostic := by
  obtain ⟨next, tree, nesting, hderives⟩ := h
  obtain ⟨stop, htakes, hstop⟩ := Cursor.Takes.exists_of_tail_eq
    (htail.trans (List.append_nil tokens).symm)
  have hnext : stop.peek.kind = .eof := by rw [stop.peek_kind_eq_firstKind, hstop, firstKind_nil]
  have hgives := gives_statement hderives.stmt_ended htakes hnext (by decide) (by simp [hbraces])
  intro herror
  generalize Table.standard.statement.run c.advance = outcome at hgives herror
  cases hgives with
  | good => contradiction
  | tooDeep _ hdeep => exact hcause (Except.error.inj herror ▸ hdeep)

/-- Where reading a statement fails, the tokens up to the one that the diagnostic stands at are the
front of a statement, and with it they are none, unless too many frames are nested. -/
theorem exists_front_of_error {c stop : Cursor} (hbraces : c.openBraces = 0)
    {diagnostic : Diagnostic}
    (hrun : Table.standard.statement.run c.advance = (.error diagnostic, stop)) :
    ∃ front rest, c.tokens.tail = front ++ rest ∧
      diagnostic.position = (rest.head?.getD (.endOfInput c.finish)).position ∧ Viable front ∧
      (diagnostic.cause ≠ .nestingTooDeep nestingLimit →
        match rest with
        | [] => ¬ IsTopLevel front
        | token :: _ => ¬ Viable (front ++ [token])) := by
  obtain @⟨front, rest, between, htakes, ⟨tree, nesting, hderives⟩, -, hposition, hfails⟩ :=
    (Table.detecting_level nestingLimit).readStmt false .eof hrun
  have htail : c.tokens.tail = front ++ between.tokens.tail := htakes.tail_eq
  rw [Cursor.peek, htakes.finish_eq] at hposition
  refine ⟨front, between.tokens.tail, htail, hposition, ⟨rest, .eof, tree, nesting, hderives⟩,
    fun hcause => ?_⟩
  split
  · rename_i hnil
    rw [hnil, List.append_nil] at htail
    exact fun hwhole => hwhole.result_ne_error htail hbraces hcause (congrArg Prod.fst hrun)
  · rename_i token left hleft
    rintro ⟨more, hwhole⟩
    -- the same failure in a source that goes on as the statement does
    let c' : Cursor := ⟨c.current :: (front ++ [token] ++ more), c.finish, c.openBraces⟩
    have hshares : c.Shares left more c' :=
      ⟨rfl, rfl, rfl, front ++ [token], by simp [htail, hleft], rfl⟩
    have hpeek : between.tokens.tail = between.peek :: left := by
      rw [Cursor.peek_of_tail_eq hleft, hleft]
    exact hwhole.result_ne_error (c := c') rfl hbraces hcause (hfails hpeek hshares)

/-- Where each token has a position of its own, the position of the first token of the rest tells
where a list of tokens is split. -/
theorem front_eq_of_position {front rest front' rest' : List Token} {last : Token}
    (hnodup : ((front ++ rest ++ [last]).map Token.position).Nodup)
    (heq : front ++ rest = front' ++ rest')
    (hposition : (rest'.head?.getD last).position = (rest.head?.getD last).position) :
    front' = front := by
  have hsplit (rest : List Token) : ∃ more, rest ++ [last] = rest.head?.getD last :: more := by
    cases rest with
    | nil => exact ⟨[], rfl⟩
    | cons token rest => exact ⟨rest ++ [last], rfl⟩
  obtain ⟨more, hmore⟩ := hsplit rest
  obtain ⟨more', hmore'⟩ := hsplit rest'
  have hmapped := congrArg (fun tokens => (tokens ++ [last]).map Token.position) heq
  simp only [List.append_assoc, hmore, hmore', List.map_append, List.map_cons, hposition]
    at hnodup hmapped
  obtain ⟨-, hnodupMore, hdisjoint⟩ := List.nodup_append.mp hnodup
  have hfront : (rest.head?.getD last).position ∉ front.map Token.position :=
    fun hmem => hdisjoint _ hmem _ List.mem_cons_self rfl
  obtain ⟨hpositions, -, -⟩ := (List.append_cons_inj_of_notMem hfront
    (List.nodup_cons.mp hnodupMore).1).mp hmapped
  have hlength : front.length = front'.length := by simpa using congrArg List.length hpositions
  exact (List.append_inj heq hlength).1.symm

/-- The diagnostic of an attempt stands at the first token with which what the attempt has read is
not the front of a statement any more. -/
theorem earliest_error {source : String} {file : Option String} {attempt : Attempt}
    {diagnostic : Diagnostic} (hmem : attempt ∈ sourceAttempts source file)
    (hresult : attempt.result = .error diagnostic) :
    ∃ front rest, attempt.start.tokens = front ++ rest ∧
      diagnostic.position =
        (rest.head?.getD (.endOfInput (Lexer.ofString source file).finish)).position ∧
      (source.utf8ByteSize ≤ Position.maxOffset → ∀ front' rest',
        attempt.start.tokens = front' ++ rest' →
          diagnostic.position =
            (rest'.head?.getD (.endOfInput (Lexer.ofString source file).finish)).position →
          front' = front) ∧
      Viable front ∧
      (diagnostic.cause ≠ .nestingTooDeep nestingLimit →
        match rest with
        | [] => ¬ IsTopLevel front
        | token :: _ => ¬ Viable (front ++ [token])) := by
  obtain ⟨houtside, hattempt⟩ := outside_of_mem_sourceAttempts hmem
  obtain ⟨first, second, hsplit⟩ := List.append_of_mem hmem
  obtain ⟨hreaches, -⟩ := of_attempts_eq_append hsplit
  let c : Cursor := .before attempt.start.tokens attempt.start.finish 0
  have hrun : Table.standard.statement.run c.advance = (.error diagnostic, attempt.stop) := by
    rw [← houtside.eq_advance, ← hresult, hattempt]
    rfl
  obtain ⟨front, rest, htokens, hposition, hviable, hhopeless⟩ := exists_front_of_error rfl hrun
  have hfinish : c.finish = (Lexer.ofString source file).finish := hreaches.finish_eq
  rw [hfinish] at hposition
  refine ⟨front, rest, htokens, hposition, fun hsize front' rest' htokens' hposition' => ?_,
    hviable, hhopeless⟩
  have hsuffix : (front ++ rest ++ [Token.endOfInput (Lexer.ofString source file).finish]).map
      Token.position <:+ (tokenize source file).map Token.position := by
    obtain ⟨before, hbefore⟩ := hreaches.tokens_suffix
    refine List.IsSuffix.map _ ⟨before, ?_⟩
    rw [← htokens, ← List.append_assoc]
    exact congrArg (· ++ [_]) hbefore
  exact front_eq_of_position ((nodup_positions hsize file).sublist hsuffix.sublist)
    (htokens.symm.trans htokens') (hposition'.symm.trans hposition)

/-- Inside a block inside a call, a brace comes where an operand is missing. -/
theorem earliest_error_of_missing_operand :
    ∃ front token rest,
      (Lexer.ofString "f(a, fn() { a + })" none).content = front ++ token :: rest ∧
        token.position.offset = 16 ∧ Viable front ∧ ¬ Viable (front ++ [token]) := by
  let source := "f(a, fn() { a + })"
  let start := Cursor.ofString source none
  let attempt := Attempt.ofCursor Table.standard.statement start
  have hmem : attempt ∈ sourceAttempts source none := by
    rw [sourceAttempts, attempts_of_tokens_ne_nil (by decide +kernel)]
    exact List.mem_cons_self
  have hresult : attempt.result = .error ⟨.noPrefixRule .closeCurly, ⟨16, "shell"⟩⟩ := by
    have hdiagnostic : attempt.diagnostic? = some ⟨.noPrefixRule .closeCurly, ⟨16, "shell"⟩⟩ := by
      decide +kernel
    rw [Attempt.diagnostic?] at hdiagnostic
    split at hdiagnostic
    · contradiction
    · rwa [← Option.some.inj hdiagnostic]
  obtain ⟨front, rest, htokens, hposition, -, hviable, hhopeless⟩ := earliest_error hmem hresult
  replace hhopeless := hhopeless (by decide)
  cases rest with
  | nil =>
    have hoffset : (Lexer.ofString source none).finish.offset = 16 :=
      congrArg Position.offset hposition.symm
    exact absurd hoffset (by decide +kernel)
  | cons token rest =>
    exact ⟨front, token, rest, htokens, congrArg Position.offset hposition.symm, hviable,
      hhopeless⟩

end LetScript
