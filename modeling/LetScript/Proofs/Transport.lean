import LetScript.Proofs.Acceptance
import LetScript.Proofs.Relocation

/-!
# Derivations in other places

What the tokens are derived as does not depend on where they stand, and the statements that make
up a source may as well make up a block: a binding or a return may leave its semicolon out before
the closing brace as it may before the end of the input.
-/

namespace LetScript

/-- The phrase with its tokens at other places. -/
def Phrase.relocate (g : Relocation) : Phrase → Phrase
  | expr stratum tree => .expr stratum (tree.relocate g)
  | someArguments trees => .someArguments (trees.map (Expr.relocate g))
  | arguments trees => .arguments (trees.map (Expr.relocate g))
  | block tree => .block (tree.relocate g)
  | stmt inside next tree => .stmt inside next (tree.relocate g)
  | stmts inside next trees => .stmts inside next (trees.map (Stmt.relocate g))

section

variable {g : Relocation} {tokens : List Token}

theorem Names.relocate {parameters : List Identifier} (h : Names parameters tokens) :
    Names (parameters.map (Identifier.relocate g)) (tokens.map (Token.relocate g)) := by
  induction h with
  | one hname => exact .one hname
  | more _ hcomma hname ih =>
    rw [List.map_append, List.map_append]
    exact .more ih hcomma hname

theorem Parameters.relocate {parameters : List Identifier} (h : Parameters parameters tokens) :
    Parameters (parameters.map (Identifier.relocate g)) (tokens.map (Token.relocate g)) := by
  cases h with
  | none => exact .none
  | some hnames => exact .some hnames.relocate

theorem Terminator.relocate {inside : Bool} {next : Kind} (h : Terminator inside next tokens) :
    Terminator inside next (tokens.map (Token.relocate g)) := by
  cases h with
  | semicolon hkind => exact .semicolon hkind
  | endOfInput hnext => exact .endOfInput hnext
  | endOfBlock hinside hnext => exact .endOfBlock hinside hnext

theorem LooseEnd.relocate {next : Kind} (h : LooseEnd next tokens) :
    LooseEnd next (tokens.map (Token.relocate g)) := by
  cases h with
  | semicolon hkind => exact .semicolon hkind
  | nothing hnext => exact .nothing hnext

theorem firstKind_relocate (next : Kind) :
    firstKind (tokens.map (Token.relocate g)) next = firstKind tokens next := by
  cases tokens <;> rfl

/-- What the tokens are derived as at other places is what they are derived as here. -/
theorem Derives.relocate {phrase : Phrase} {nesting : Nat} (h : Derives phrase tokens nesting) :
    Derives (phrase.relocate g) (tokens.map (Token.relocate g)) nesting := by
  induction h with
  | tighter _ ih => exact .tighter ih
  | infixOp _ hop _ ihleft ihright =>
    rw [List.map_append, Phrase.relocate, Expr.relocate]
    exact .infixOp ihleft hop ihright
  | prefixOp hop _ ih =>
    rw [Phrase.relocate, Expr.relocate]
    exact .prefixOp hop ih
  | call _ hopening _ hclosing ihcallee ih =>
    rw [List.map_append, List.map_cons, List.map_append, Phrase.relocate, Expr.relocate,
      Expr.relocateAll_eq]
    exact .call ihcallee hopening ih hclosing
  | identifier hkind =>
    rw [Phrase.relocate, Expr.relocate]
    exact .identifier hkind
  | integer hkind hvalue hle =>
    rw [Phrase.relocate, Expr.relocate]
    exact .integer hkind hvalue hle
  | boolean hkind =>
    rw [Phrase.relocate, Expr.relocate]
    exact .boolean hkind
  | grouping hopening _ hclosing ih =>
    rw [List.map_cons, List.map_append]
    exact .grouping hopening ih hclosing
  | conditional hkw hopening _ hclosing _ ihcondition ihblock =>
    rw [List.map_cons, List.map_cons, List.map_append, List.map_cons, Phrase.relocate,
      Expr.relocate]
    exact .conditional hkw hopening ihcondition hclosing ihblock
  | conditionalElse hkw hopening _ hclosing _ helse _ ihcondition ihfirst ihsecond =>
    rw [List.map_cons, List.map_cons, List.map_append, List.map_cons, List.map_append,
      List.map_cons, Phrase.relocate, Expr.relocate]
    exact .conditionalElse hkw hopening ihcondition hclosing ihfirst helse ihsecond
  | function hkw hopening hparameters hclosing _ ih =>
    rw [List.map_cons, List.map_cons, List.map_append, List.map_cons, Phrase.relocate,
      Expr.relocate]
    exact .function hkw hopening hparameters.relocate hclosing ih
  | oneArgument _ ih => exact .oneArgument ih
  | moreArguments _ hcomma _ ihfirst ihsecond =>
    rw [List.map_append, Phrase.relocate, List.map_append]
    exact .moreArguments ihfirst hcomma ihsecond
  | noArguments => exact .noArguments
  | arguments _ ih => exact .arguments ih
  | block hopening _ hclosing ih =>
    rw [List.map_cons, List.map_append, Phrase.relocate, Block.relocate, Stmt.relocateAll_eq]
    exact .block hopening ih hclosing
  | binding hkw hname hassignment _ hend ih =>
    rw [List.map_cons, List.map_cons, List.map_cons, List.map_append, Phrase.relocate,
      Stmt.relocate]
    exact .binding hkw hname hassignment ih hend.relocate
  | returningNothing hkw hend =>
    rw [List.map_cons, Phrase.relocate, Stmt.relocate]
    exact .returningNothing hkw hend.relocate
  | returning hkw _ hend ih =>
    rw [List.map_cons, List.map_append, Phrase.relocate, Stmt.relocate]
    exact .returning hkw ih hend.relocate
  | expression _ hend ih =>
    rw [List.map_cons, List.map_append, Phrase.relocate, Stmt.relocate]
    exact .expression ih hend.relocate
  | noStmts => exact .noStmts
  | moreStmts _ _ ihfirst ihrest =>
    rw [List.map_append]
    refine .moreStmts ?_ ihrest
    rw [firstKind_relocate]
    exact ihfirst

end

section Inside

variable {next : Kind} {tokens : List Token}

/-- A block allows whatever the end of a source does. -/
theorem Terminator.within (h : Terminator false next tokens) : Terminator true next tokens := by
  cases h with
  | semicolon hkind => exact .semicolon hkind
  | endOfInput hnext => exact .endOfInput hnext
  | endOfBlock hinside _ => contradiction

/-- The closing brace ends what the end of the input ends. -/
theorem Terminator.closed {inside : Bool} (h : Terminator inside next tokens) :
    Terminator true .closeCurly tokens := by
  cases h with
  | semicolon hkind => exact .semicolon hkind
  | endOfInput _ => exact .endOfBlock rfl rfl
  | endOfBlock _ _ => exact .endOfBlock rfl rfl

theorem LooseEnd.closed (h : LooseEnd next tokens) : LooseEnd .closeCurly tokens := by
  cases h with
  | semicolon hkind => exact .semicolon hkind
  | nothing _ => exact .nothing (Table.power_le_lowest_iff.mp (by decide))

/-- Outside all blocks, what may end somewhere may end at the end of the input. -/
theorem Terminator.ended (h : Terminator false next tokens) : Terminator false .eof tokens := by
  cases h with
  | semicolon hkind => exact .semicolon hkind
  | endOfInput _ => exact .endOfInput rfl
  | endOfBlock hinside _ => contradiction

theorem LooseEnd.ended (h : LooseEnd next tokens) : LooseEnd .eof tokens := by
  cases h with
  | semicolon hkind => exact .semicolon hkind
  | nothing _ => exact .nothing (Table.power_le_lowest_iff.mp (by decide))

theorem Derives.stmt_within {tree : Stmt} {nesting : Nat}
    (h : Derives (.stmt false next tree) tokens nesting) :
    Derives (.stmt true next tree) tokens nesting := by
  cases h with
  | binding hkw hname hassignment hvalue hend =>
    exact .binding hkw hname hassignment hvalue hend.within
  | returningNothing hkw hend => exact .returningNothing hkw hend.within
  | returning hkw hvalue hend => exact .returning hkw hvalue hend.within
  | expression hvalue hend => exact .expression hvalue hend

theorem Derives.stmt_closed {inside : Bool} {tree : Stmt} {nesting : Nat}
    (h : Derives (.stmt inside next tree) tokens nesting) :
    Derives (.stmt true .closeCurly tree) tokens nesting := by
  cases h with
  | binding hkw hname hassignment hvalue hend =>
    exact .binding hkw hname hassignment hvalue hend.closed
  | returningNothing hkw hend => exact .returningNothing hkw hend.closed
  | returning hkw hvalue hend => exact .returning hkw hvalue hend.closed
  | expression hvalue hend => exact .expression hvalue hend.closed

theorem Derives.stmt_ended {tree : Stmt} {nesting : Nat}
    (h : Derives (.stmt false next tree) tokens nesting) :
    Derives (.stmt false .eof tree) tokens nesting := by
  cases h with
  | binding hkw hname hassignment hvalue hend =>
    exact .binding hkw hname hassignment hvalue hend.ended
  | returningNothing hkw hend => exact .returningNothing hkw hend.ended
  | returning hkw hvalue hend => exact .returning hkw hvalue hend.ended
  | expression hvalue hend => exact .expression hvalue hend.ended

/-- The statements of a source are those of a block. -/
theorem Derives.stmts_closed {trees : List Stmt} {nesting : Nat}
    (h : Derives (.stmts false .eof trees) tokens nesting) :
    Derives (.stmts true .closeCurly trees) tokens nesting := by
  induction trees generalizing tokens nesting with
  | nil =>
    cases h
    exact .noStmts
  | cons tree trees ih =>
    cases h with
    | @moreStmts _ _ _ _ first second _ _ hfirst hrest =>
      refine .moreStmts ?_ (ih hrest)
      cases second with
      | nil => exact hfirst.stmt_closed
      | cons token rest => exact hfirst.stmt_within

end Inside

/-- A source without diagnostics is derived as the statements that are read, with at most as many
frames open at once as levels may be nested. -/
theorem derives_of_attempts {c : Cursor} (houtside : c.tokens ≠ [] → c.Outside)
    (h : Attempt.diagnostics (attempts Table.standard.statement c) = []) :
    ∃ nesting ≤ nestingLimit, Derives
      (.stmts false .eof (Attempt.program (attempts Table.standard.statement c)).statements)
      c.tokens nesting := by
  fun_induction attempts Table.standard.statement c with
  | case1 c hnil =>
    rw [hnil]
    exact ⟨0, Nat.zero_le _, .noStmts⟩
  | case2 c hleft _ ih =>
    rw [← List.nil_append (_ :: _)] at h
    obtain ⟨-, ⟨tree, hresult⟩, hrest⟩ := Attempt.succeeds_of_diagnostics_eq_nil h
    obtain ⟨nesting, hle, hderives⟩ := ih (Attempt.outside_next (houtside hleft)) hrest
    obtain ⟨⟨first, hfirst, hstmt⟩, htakes⟩ :=
      Attempt.derives_of_result rfl (houtside hleft) hresult
    rw [Attempt.tokens_start_eq (houtside hleft) hresult, (Attempt.cons_of_ok hresult _).1]
    have hnext : (Attempt.ofCursor Table.standard.statement c).stop.peek.kind =
        firstKind (Attempt.ofCursor Table.standard.statement c).next.tokens .eof := by
      rw [Cursor.peek_kind_eq_firstKind, Attempt.next, Attempt.last, hresult]
      rfl
    exact ⟨max first nesting, Nat.max_le.mpr ⟨hfirst, hle⟩, .moreStmts (hnext ▸ hstmt) hderives⟩

end LetScript
