import LetScript.Program.Reader
import LetScript.Proofs.Outcome
import LetScript.Proofs.Passage
import LetScript.Proofs.Strata
import LetScript.Tree.Printer

/-!
# Chains of operands and operators

A chain is a name, an operator, a name and so on. Whatever powers the operators are registered
with, a chain is read to its end as a tree that has its tokens in order and in which the powers
decide what belongs together: to the left of an operator stand only operators that bind at least
as tightly, to its right only those that bind tighter.

A right operand is read with the power of its operator as the surroundings, and only an operator
above the surroundings opens one. The frames open at once therefore have larger and larger powers,
and as there are seven of these, seven frames suffice for a chain of any length.
-/

namespace LetScript

open Routine

/-- Operators and the operands after them, as tokens. -/
def linked (links : List (Token × Token)) : List Token :=
  links.flatMap fun link => [link.1, link.2]

/-- Each operator has the rule of operators in the table, and each operand is a name. -/
def Links (table : Table) (links : List (Token × Token)) : Prop :=
  ∀ link ∈ links, link.2.kind = .identifier ∧
    ∃ power, table.infixRule link.1.kind = some (power, .infixOp)

/-- The rules that reading a chain depends on. -/
structure Table.ReadsLinks (table : Table) : Prop where
  prefixRule_identifier : table.prefixRule .identifier = some .identifier
  infixRule_eof : table.infixRule .eof = none
  lowest_lt {kind : Kind} {power : Power} :
    table.infixRule kind = some (power, .infixOp) → .lowest < power

namespace Expr

/-- A tree of names and operators with these tokens in order. -/
inductive InOrder : Expr → List Token → Prop where
  | identifier {token : Token} : token.kind = .identifier →
      InOrder (.identifier (.ofToken token)) [token]
  | infixOp {op : Token} {left right : Expr} {first second : List Token} :
      InOrder left first → InOrder right second →
        InOrder (.infixOp op left op.literal right) (first ++ op :: second)

/-- The operators of a tree of names and operators, in order. -/
def operators : Expr → List Token
  | .infixOp op left _ right => left.operators ++ op :: right.operators
  | _ => []

theorem forall_operators_infixOp {op : Token} {left right : Expr} {literal : String}
    {P : Token → Prop} :
    (∀ other ∈ (infixOp op left literal right).operators, P other) ↔
      (∀ other ∈ left.operators, P other) ∧ P op ∧ ∀ other ∈ right.operators, P other := by
  simp only [operators, List.forall_mem_append, List.forall_mem_cons]

/-- Left of each operator stand only operators that bind at least as tightly, right of it only
those that bind tighter. -/
def Grouped (table : Table) : Expr → Prop
  | .infixOp op left _ right =>
    (∀ other ∈ left.operators, table.power op.kind ≤ table.power other.kind) ∧
      (∀ other ∈ right.operators, table.power op.kind < table.power other.kind) ∧
        left.Grouped table ∧ right.Grouped table
  | _ => True

/-- What is read of a chain where operators must bind tighter than `power`. -/
structure Chained (table : Table) (power : Power) (tree : Expr) (tokens : List Token) : Prop where
  inOrder : tree.InOrder tokens
  grouped : tree.Grouped table
  lt : ∀ op ∈ tree.operators, power < table.power op.kind

theorem Chained.identifier (table : Table) (power : Power) {token : Token}
    (h : token.kind = .identifier) :
    Chained table power (.identifier (.ofToken token)) [token] :=
  ⟨.identifier h, trivial, by simp [operators]⟩

/-- An operator goes on top of what binds at least as tightly, with what binds tighter as its
right operand. -/
theorem Chained.infixOp {table : Table} {power : Power} {op : Token} {left right : Expr}
    {first second : List Token} (hleft : left.Chained table power first)
    (hright : right.Chained table (table.power op.kind) second)
    (hop : power < table.power op.kind)
    (hle : ∀ other ∈ left.operators, table.power op.kind ≤ table.power other.kind) :
    Chained table power (.infixOp op left op.literal right) (first ++ op :: second) where
  inOrder := .infixOp hleft.inOrder hright.inOrder
  grouped := ⟨hle, hright.lt, hleft.grouped, hright.grouped⟩
  lt := forall_operators_infixOp.mpr
    ⟨hleft.lt, hop, fun other hmem => Nat.lt_trans hop (hright.lt other hmem)⟩

end Expr

namespace Table

variable {table : Table}

theorem power_of_infixRule {kind : Kind} {power : Power} {rule : InfixRule}
    (h : table.infixRule kind = some (power, rule)) : table.power kind = power := by
  simp [Table.power, h]

/-- Where a chain ends, or its next operator binds no tighter than the surroundings, no rule goes
on. -/
theorem ReadsLinks.infixRuleAbove_eq_none (h : table.ReadsLinks) {power : Power} {c : Cursor}
    {links : List (Token × Token)} (htail : c.tokens.tail = linked links)
    (hstop : ∀ link ∈ links.head?, table.power link.1.kind ≤ power) :
    table.infixRuleAbove power c.peek.kind = none := by
  cases links with
  | nil =>
    have heof : c.peek.kind = .eof := by simp [Cursor.peek, htail, linked, Token.endOfInput]
    simp [infixRuleAbove, heof, h.infixRule_eof]
  | cons link rest =>
    have hpeek : c.peek = link.1 := Cursor.peek_of_tail_eq htail
    rw [hpeek, infixRuleAbove, if_neg (Power.not_lt.mpr (hstop link rfl))]

end Table

namespace Level

variable {table : Table} {inner : Level} {levels : Nat}

/-- With this many levels, an expression that starts with a name in a chain is read up to the first
operator that binds no tighter than its surroundings. -/
def ReadsChains (table : Table) (level : Level) (levels : Nat) : Prop :=
  ∀ {power : Power} {c : Cursor} {links : List (Token × Token)}, 6 < levels + power.rank →
    c.current.kind = .identifier → c.tokens.tail = linked links → Links table links →
      ∃ taken left tree stop, links = taken ++ left ∧
        (level.expr power).run c = (.ok tree, stop) ∧ c.Takes (linked taken) stop ∧
        tree.Chained table power (c.current :: linked taken) ∧
        ∀ link ∈ left.head?, table.power link.1.kind ≤ power

/-- An operator is read with the part of the chain that binds tighter than it. -/
theorem ReadsChains.readInfixOp (h : ReadsChains table inner levels) {op operand : Token}
    (hlevels : 6 < levels + (table.power op.kind).rank) (hoperand : operand.kind = .identifier)
    {more : List (Token × Token)} (hmore : Links table more) {c : Cursor}
    (htail : c.tokens.tail = op :: operand :: linked more) (tree : Expr) :
    ∃ taken left right stop, more = taken ++ left ∧
      (inner.readInfixOp table tree).run c.advance =
        (.ok (.infixOp op tree op.literal right), stop) ∧
      c.Takes (op :: operand :: linked taken) stop ∧
      right.Chained table (table.power op.kind) (operand :: linked taken) ∧
      ∀ link ∈ left.head?, table.power link.1.kind ≤ table.power op.kind := by
  have hop : c.advance.current = op := Cursor.peek_of_tail_eq htail
  have htail' : c.advance.tokens.tail = operand :: linked more := by
    rw [Cursor.tokens_advance, htail, List.tail_cons]
  have hcurrent : c.advance.advance.current = operand := Cursor.peek_of_tail_eq htail'
  obtain ⟨taken, left, right, stop, hsplit, hrun, htakes, hright, hstop⟩ :=
    h hlevels (hcurrent ▸ hoperand)
      (by rw [Cursor.tokens_advance, htail', List.tail_cons]) hmore
  rw [hcurrent] at hright
  refine ⟨taken, left, right, stop, hsplit, ?_, .cons htail (.cons htail' htakes), hright, hstop⟩
  simp only [Level.readInfixOp, run_current_bind, run_advance_bind, hop]
  rw [run_bind_of_ok hrun]
  rfl

/-- The rule of an operator puts it on top of all that was read so far, with what binds tighter
than it as its right operand. The operator that comes next binds no tighter than any below it. -/
theorem ReadsChains.readInfix (h : ReadsChains table inner levels) {power : Power}
    (hlevels : 6 < levels + 1 + power.rank) {op operand : Token} {more : List (Token × Token)}
    (hlinks : Links table ((op, operand) :: more)) {c : Cursor}
    (htail : c.tokens.tail = linked ((op, operand) :: more)) {tree : Expr} {tokens : List Token}
    (htree : tree.Chained table power tokens) (hlt : power < table.power op.kind)
    (hnext : ∀ other ∈ tree.operators, table.power op.kind ≤ table.power other.kind) :
    ∃ rule taken left top stop, table.infixRuleAbove power c.peek.kind = some rule ∧
      more = taken ++ left ∧ (inner.readInfix table rule tree).run c.advance = (.ok top, stop) ∧
      c.Takes (linked ((op, operand) :: taken)) stop ∧
      top.Chained table power (tokens ++ linked ((op, operand) :: taken)) ∧
      ∀ link ∈ left.head?, ∀ other ∈ top.operators,
        table.power link.1.kind ≤ table.power other.kind := by
  obtain ⟨hoperand, opPower, hrule⟩ := hlinks (op, operand) List.mem_cons_self
  have hmore : Links table more := fun link hmem => hlinks link (List.mem_cons_of_mem _ hmem)
  have habove : table.infixRuleAbove power c.peek.kind = some .infixOp := by
    rw [Cursor.peek_of_tail_eq htail, Table.infixRuleAbove, if_pos hlt, hrule]
    rfl
  have hroom : 6 < levels + (table.power op.kind).rank := by
    have hrank : power.rank < (table.power op.kind).rank := hlt
    omega
  obtain ⟨taken, left, right, stop, hsplit, hrun, htakes, hright, hstop⟩ :=
    h.readInfixOp hroom hoperand hmore htail tree
  refine ⟨.infixOp, taken, left, _, stop, habove, hsplit, hrun, htakes,
    htree.infixOp hright hlt hnext, fun link hlink => ?_⟩
  have hle := hstop link hlink
  exact Expr.forall_operators_infixOp.mpr
    ⟨fun other hmem => Power.le_trans hle (hnext other hmem), hle,
      fun other hmem => Power.le_trans hle (Nat.le_of_lt (hright.lt other hmem))⟩

/-- The loop over the operators reads on until one binds no tighter than the surroundings. What it
has read binds at least as tightly as the operator it comes to. -/
theorem ReadsChains.whileNext (htable : table.ReadsLinks) (h : ReadsChains table inner levels)
    {power : Power} (hlevels : 6 < levels + 1 + power.rank) {links : List (Token × Token)}
    (hlinks : Links table links) {c : Cursor} (hleft : c.tokens ≠ [])
    (htail : c.tokens.tail = linked links) {tree : Expr} {tokens : List Token}
    (htree : tree.Chained table power tokens)
    (hnext : ∀ link ∈ links.head?, ∀ op ∈ tree.operators,
      table.power link.1.kind ≤ table.power op.kind) :
    ∃ taken left last stop, links = taken ++ left ∧
      (Routine.whileNext (fun cursor => table.infixRuleAbove power cursor.peek.kind)
        (inner.readInfix table) tree).run c = (.ok last, stop) ∧ c.Takes (linked taken) stop ∧
      last.Chained table power (tokens ++ linked taken) ∧
      ∀ link ∈ left.head?, table.power link.1.kind ≤ power := by
  induction hlength : links.length using Nat.strongRecOn generalizing links c tree tokens with
  | ind length ih =>
    by_cases hstop : ∀ link ∈ links.head?, table.power link.1.kind ≤ power
    · have hnone := htable.infixRuleAbove_eq_none htail hstop
      refine ⟨[], links, tree, c, rfl, run_whileNext_of_eq_none hnone _ _, .nil c, ?_, hstop⟩
      simpa [linked] using htree
    · cases links with
      | nil => exact absurd (by simp) hstop
      | cons link more =>
        obtain ⟨op, operand⟩ := link
        have hlt : power < table.power op.kind := by
          by_contra hle
          exact hstop (by simpa using Power.not_lt.mp hle)
        obtain ⟨rule, taken, rest, top, between, habove, rfl, hrun, htakes, htop, hnext'⟩ :=
          h.readInfix hlevels hlinks htail htree hlt (hnext (op, operand) rfl)
        have hbetween : between.tokens.tail = linked rest := by
          have hall := htakes.tail_eq
          rw [htail] at hall
          simpa [linked] using hall.symm
        -- Fewer links are left after the operator and its operand.
        obtain ⟨more, left, last, stop, rfl, hloop, htakesMore, hlast, hstop⟩ :=
          ih _ (by rw [← hlength, List.length_cons, List.length_append]; omega)
            (fun link hmem => hlinks link (by simp [hmem]))
            (htakes.stop_ne_nil (List.cons_ne_nil _ _)) hbetween htop hnext' rfl
        refine ⟨(op, operand) :: (taken ++ more), left, last, stop, by simp, ?_, ?_, ?_, hstop⟩
        · rw [run_whileNext_of_eq_some habove hleft]
          exact (run_bind_of_ok hrun _).trans hloop
        · simpa [linked] using htakes.append htakesMore
        · simpa [linked] using hlast

/-- An expression that starts with a name in a chain is read by the loop over its operators. -/
theorem ReadsChains.succ (htable : table.ReadsLinks) (h : ReadsChains table inner levels)
    (block : Routine Block) :
    ReadsChains table ⟨inner.readExpr table, block⟩ (levels + 1) := by
  intro power c links hlevels hcurrent htail hlinks
  have hleft : c.tokens ≠ [] := by
    intro hnil
    simp [Cursor.current, hnil, Token.endOfInput] at hcurrent
  obtain ⟨taken, left, last, stop, hsplit, hrun, htakes, hlast, hstop⟩ :=
    h.whileNext htable hlevels hlinks hleft htail (.identifier table power hcurrent)
      (by simp [Expr.operators])
  refine ⟨taken, left, last, stop, hsplit, ?_, htakes, hlast, hstop⟩
  simp only [Level.readExpr, run_current_bind, hcurrent, htable.prefixRule_identifier]
  exact hrun

end Level

/-- Chains are read at every level of the table. -/
theorem Table.ReadsLinks.readsChains {table : Table} (h : table.ReadsLinks) (levels : Nat) :
    Level.ReadsChains table (table.level levels) levels := by
  induction levels with
  | zero =>
    intro power c links hlevels
    exact absurd hlevels (by cases power <;> decide)
  | succ levels ih => exact ih.succ h _

/-- With seven levels, a chain is read to its last operand. -/
theorem Table.ReadsLinks.read {table : Table} (h : table.ReadsLinks) {levels : Nat}
    (hlevels : 6 < levels) {c : Cursor} {links : List (Token × Token)}
    (hcurrent : c.current.kind = .identifier) (htail : c.tokens.tail = linked links)
    (hlinks : Links table links) :
    ∃ tree stop, ((table.level levels).expr .lowest).run c = (.ok tree, stop) ∧
      c.Takes (linked links) stop ∧ tree.InOrder (c.current :: linked links) ∧
      tree.Grouped table := by
  obtain ⟨taken, left, tree, stop, rfl, hrun, htakes, htree, hstop⟩ :=
    h.readsChains levels (Nat.lt_of_lt_of_le hlevels (Nat.le_add_right _ _)) hcurrent htail hlinks
  cases left with
  | nil =>
    rw [List.append_nil]
    exact ⟨tree, stop, hrun, htakes, htree.inOrder, htree.grouped⟩
  | cons link left =>
    -- Nothing is left: every operator binds tighter than the lowest power.
    obtain ⟨-, power, hrule⟩ := hlinks link (by simp)
    have hlt := h.lowest_lt hrule
    have hle := hstop link rfl
    rw [Table.power_of_infixRule hrule] at hle
    exact absurd hlt (Power.not_lt.mpr hle)

/-- The reader with an operator registered for each kind, one after the other. -/
def Reader.withOperators (reader : Reader) (operators : List (Kind × Power)) : Reader :=
  operators.foldl (fun reader op => reader.withInfixRule op.1 op.2 .infixOp) reader

namespace Reader

variable {reader : Reader} {operators : List (Kind × Power)}

theorem cursor_withOperators (reader : Reader) (operators : List (Kind × Power)) :
    (reader.withOperators operators).cursor = reader.cursor := by
  induction operators generalizing reader with
  | nil => rfl
  | cons op operators ih => exact ih _

theorem nesting_withOperators (reader : Reader) (operators : List (Kind × Power)) :
    (reader.withOperators operators).nesting = reader.nesting := by
  induction operators generalizing reader with
  | nil => rfl
  | cons op operators ih => exact ih _

/-- Registering operators leaves the rules that reading a chain depends on. -/
theorem readsLinks_withOperators (h : reader.table.ReadsLinks)
    (heof : ∀ op ∈ operators, op.1 ≠ .eof) (hpower : ∀ op ∈ operators, .lowest < op.2) :
    (reader.withOperators operators).table.ReadsLinks := by
  induction operators generalizing reader with
  | nil => exact h
  | cons op operators ih =>
    refine ih ?_ (fun other hmem => heof other (List.mem_cons_of_mem _ hmem))
      fun other hmem => hpower other (List.mem_cons_of_mem _ hmem)
    refine ⟨h.prefixRule_identifier, ?_, ?_⟩
    · exact (if_neg (heof op List.mem_cons_self).symm).trans h.infixRule_eof
    · intro kind power hrule
      simp only [withInfixRule, Table.withInfixRule] at hrule
      split at hrule
      · obtain ⟨rfl, -⟩ := Prod.mk.inj (Option.some.inj hrule)
        exact hpower op List.mem_cons_self
      · exact h.lowest_lt hrule

end Reader

/-- A cursor that takes a chain comes to stand on its last operand. -/
theorem Cursor.Takes.tokens_of_linked {c stop : Cursor} {first : Token}
    {links : List (Token × Token)} (h : c.Takes (linked links) stop)
    (htokens : c.tokens = first :: linked links) :
    stop.tokens = [(links.getLast?.map Prod.snd).getD first] := by
  rcases links.eq_nil_or_concat with rfl | ⟨init, link, rfl⟩
  · cases h
    exact htokens
  · rw [List.concat_eq_append] at h htokens ⊢
    have hlinked : linked (init ++ [link]) = (linked init ++ [link.1]) ++ [link.2] := by
      simp [linked]
    have htail := h.tail_eq
    rw [htokens, List.tail_cons, List.self_eq_append_right] at htail
    rw [hlinked] at h
    rw [h.tokens_eq, htail]
    simp

/-- The operators of the language can be read in chains. -/
theorem Table.readsLinks_standard : standard.ReadsLinks where
  prefixRule_identifier := rfl
  infixRule_eof := rfl
  lowest_lt {kind power} h := by
    cases kind <;> simp [standard] at h <;> subst h <;> decide

/-- Whatever operators are registered with whatever powers, a source that is a chain is read to its
last operand, however long it is, as a tree that has its tokens in order and groups them by these
powers. -/
theorem Reader.read_chain (source : String) (file : Option String)
    (operators : List (Kind × Power)) (heof : ∀ op ∈ operators, op.1 ≠ .eof)
    (hpower : ∀ op ∈ operators, .lowest < op.2) (reader : Reader)
    (hreader : reader = (Reader.ofString source file).withOperators operators)
    (first : Token) (links : List (Token × Token))
    (hcontent : (Lexer.ofString source file).content = first :: linked links)
    (hfirst : first.kind = .identifier) (hlinks : Links reader.table links) :
    ∃ tree after, reader.run (reader.level.expr .lowest) = (.ok tree, after) ∧
      after.cursor.tokens = [(links.getLast?.map Prod.snd).getD first] ∧
      tree.InOrder (first :: linked links) ∧ tree.Grouped reader.table := by
  have hcursor : reader.cursor = .ofString source file := hreader ▸ cursor_withOperators _ _
  have hnesting : reader.nesting = 0 := hreader ▸ nesting_withOperators _ _
  have htokens : reader.cursor.tokens = first :: linked links := by
    rw [hcursor]
    exact hcontent
  have hcurrent : reader.cursor.current = first := by rw [Cursor.current, htokens]; rfl
  have htable : reader.table.ReadsLinks :=
    hreader ▸ readsLinks_withOperators Table.readsLinks_standard heof hpower
  obtain ⟨tree, stop, hrun, htakes, hinOrder, hgrouped⟩ :=
    htable.read (show 6 < nestingLimit - reader.nesting by rw [hnesting]; decide)
      (hcurrent ▸ hfirst) (by rw [htokens, List.tail_cons]) hlinks
  rw [hcurrent] at hinOrder
  refine ⟨tree, { reader with cursor := stop }, ?_, htakes.tokens_of_linked htokens, hinOrder,
    hgrouped⟩
  rw [Reader.run, Reader.level, hrun]

/-- With a comma that binds tightly and a plus that binds weakly, equal powers group to the left
and rising ones to the right. -/
theorem Reader.read_chain_of_commas :
    let reader := (Reader.ofString "a+b,c,d+e" none).withOperators
      [(.comma, .multiplicative), (.plus, .equality)]
    ∃ tree after first links, reader.run (reader.level.expr .lowest) = (.ok tree, after) ∧
      tree.text = "((a + ((b , c) , d)) + e)" ∧ links.length = 4 ∧ after.cursor.tokens.length = 1 ∧
      tree.InOrder (first :: linked links) ∧ tree.Grouped reader.table := by
  intro reader
  let token (kind : Kind) (literal : String) (offset : Nat) : Token :=
    ⟨kind, literal, .ofLength offset 1 Lexer.defaultFile⟩
  let links := [(token .plus "+" 1, token .identifier "b" 2),
    (token .comma "," 3, token .identifier "c" 4), (token .comma "," 5, token .identifier "d" 6),
    (token .plus "+" 7, token .identifier "e" 8)]
  have hcontent : (Lexer.ofString "a+b,c,d+e" none).content =
      token .identifier "a" 0 :: linked links := by decide +kernel
  have hlinks : Links reader.table links := by
    intro link hmem
    simp only [links, List.mem_cons, List.not_mem_nil, or_false] at hmem
    rcases hmem with rfl | rfl | rfl | rfl <;> exact ⟨rfl, _, rfl⟩
  obtain ⟨tree, after, hrun, hstop, hinOrder, hgrouped⟩ :=
    Reader.read_chain "a+b,c,d+e" none [(.comma, .multiplicative), (.plus, .equality)] (by decide)
      (by decide) reader rfl _ links hcontent rfl hlinks
  have htext : (reader.run (reader.level.expr .lowest)).1.toOption.map Expr.text =
      some "((a + ((b , c) , d)) + e)" := by decide +kernel
  rw [hrun] at htext
  exact ⟨tree, after, _, links, hrun, Option.some.inj htext, rfl, by rw [hstop]; rfl, hinOrder,
    hgrouped⟩

end LetScript
