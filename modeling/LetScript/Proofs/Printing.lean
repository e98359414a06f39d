import LetScript.Proofs.Spelling
import LetScript.Tree.Printer

/-!
# Printed trees as source

An expression without conditionals and functions is printed as source from which the grammar
derives it again. The parentheses around each operator make it a primary expression whatever its
operands are. They also open frames which the source it was read from may have done without: the
printed text has as many open at once as the tree needs, and one tree may need more than may be
open.

All this holds of trees whose nodes agree with their tokens, as those do which the grammar derives
from a source.
-/

namespace LetScript

/-- An expression without conditionals and functions. -/
inductive Expr.Flat : Expr → Prop where
  | identifier (id : Identifier) : Flat (.identifier id)
  | integer (token : Token) (value : Int64) : Flat (.integer token value)
  | boolean (token : Token) (value : Bool) : Flat (.boolean token value)
  | prefixOp {token : Token} {operator : String} {right : Expr} :
      Flat right → Flat (.prefixOp token operator right)
  | infixOp {token : Token} {left : Expr} {operator : String} {right : Expr} :
      Flat left → Flat right → Flat (.infixOp token left operator right)
  | call {token : Token} {callee : Expr} {arguments : List Expr} :
      Flat callee → (∀ argument ∈ arguments, Flat argument) →
        Flat (.call token callee arguments)

/-- An expression without conditionals and functions whose nodes agree with their tokens. -/
inductive Expr.Printable : Expr → Prop where
  | identifier {token : Token} : token.kind = .identifier → token.Spelled →
      Printable (.identifier (.ofToken token))
  | integer {token : Token} {value : Nat} : token.kind = .integer →
      Decimal.value? token.literal.toList = some value → value ≤ maxInteger →
        Printable (.integer token (.ofNat value))
  | boolean {token : Token} : token.kind = .kwTrue ∨ token.kind = .kwFalse → token.Spelled →
      Printable (.boolean token (token.kind = .kwTrue))
  | prefixOp {op : Token} {right : Expr} : op.kind = .dash ∨ op.kind = .not → op.Spelled →
      Printable right → Printable (.prefixOp op op.literal right)
  | infixOp {op : Token} {stratum : Stratum} {left right : Expr} : op.kind ∈ stratum.operators →
      op.Spelled → Printable left → Printable right →
        Printable (.infixOp op left op.literal right)
  | call {opening : Token} {callee : Expr} {arguments : List Expr} :
      opening.kind = .openParen → opening.Spelled → Printable callee →
        (∀ argument ∈ arguments, Printable argument) →
          Printable (.call opening callee arguments)

mutual

/-- The frames that are open at once when the printed expression is read; one with a block is not
read back. -/
def Expr.need : Expr → Nat
  | .identifier _ => 1
  | .integer _ _ => 1
  | .boolean _ _ => 1
  | .prefixOp _ _ right => 2 + right.need
  | .infixOp _ left _ right => max (1 + left.need) (2 + right.need)
  | .call _ callee arguments => max callee.need (Expr.needs arguments)
  | .conditional _ _ _ _ => 0
  | .function _ _ _ => 0

/-- The frames for the arguments of a call, each of which opens one. -/
def Expr.needs : List Expr → Nat
  | [] => 0
  | argument :: rest => max (1 + argument.need) (Expr.needs rest)

end

/-- What comes next is no part of the token before it. -/
def Delimited (bytes : List UInt8) : Prop :=
  ∀ kind : Kind, ∀ byte ∈ bytes.head?, kind.absorbs byte = false

namespace Delimited

theorem nil : Delimited [] := by
  intro kind byte hmem
  contradiction

theorem cons {byte : UInt8} (h : ∀ kind ∈ Kind.all, kind.absorbs byte = false)
    (rest : List UInt8) : Delimited (byte :: rest) := by
  intro kind other hmem
  obtain rfl := Option.some.inj hmem
  exact h kind kind.mem_all

end Delimited

/-- A token of a kind with only one spelling is read from it. -/
theorem ReadsAs.ofKind {bytes : List UInt8} {tokens : List Token} {kind : Kind} {text : String}
    (htext : kind.spelling? = some text)
    (hbytes : ∀ byte ∈ bytes.head?, kind.absorbs byte = false) (h : ReadsAs bytes tokens) :
    ReadsAs (Utf8.encode text ++ bytes) (.ofKind kind :: tokens) := by
  have hliteral : (Token.ofKind kind).literal = text := by
    rw [Token.ofKind, htext, Option.getD_some]
  have hspelled : (Token.ofKind kind).Spelled := by
    cases kind <;> first
      | contradiction
      | rfl
  rw [← hliteral]
  exact h.token hspelled hbytes

/-- The printed expression is read as the tokens, which it is derived from. -/
structure Expr.PrintsAs (tree : Expr) (tokens : List Token) (nesting : Nat) : Prop where
  need_eq : tree.need = nesting + 1
  derives : Derives (.expr .call tree) tokens nesting
  plain : ∀ token ∈ tokens, token.kind.Plain
  exists_first : ∃ byte rest, Utf8.encode tree.text = byte :: rest ∧ byte ≠ 0x3d
  readsAs {bytes : List UInt8} {rest : List Token} : Delimited bytes → ReadsAs bytes rest →
    ReadsAs (Utf8.encode tree.text ++ bytes) (tokens ++ rest)

namespace Kind

theorem plain_of_startsExpr {kind : Kind} (h : kind.startsExpr = true) : kind.Plain := by
  refine ⟨?_, ?_, ?_, ?_, ?_⟩ <;> rintro rfl <;> contradiction

/-- No expression starts with an equals sign. -/
theorem Spells.exists_first {kind : Kind} {text : String} (h : kind.Spells text)
    (hstarts : kind.startsExpr = true) :
    ∃ byte rest, Utf8.encode text = byte :: rest ∧ byte ≠ 0x3d := by
  have hequals (rest : List UInt8) : (longestToken 0x3d rest).1.startsExpr = false := by
    rw [longestToken, if_neg (by decide), if_neg (by decide)]
    split
    · rfl
    · rw [if_neg (by simp)]
      rfl
  have hnone : ∀ byte ∈ ([] : List UInt8).head?, kind.absorbs byte = false := by simp
  obtain ⟨byte, rest, hencode, hlongest, -⟩ := h.exists_longestToken hnone
  refine ⟨byte, rest, hencode, ?_⟩
  rintro rfl
  have hkind := hequals (rest ++ [])
  rw [hlongest, hstarts] at hkind
  contradiction

end Kind

namespace Expr.PrintsAs

/-- An expression of a single token. -/
theorem single {tree : Expr} {token : Token} (hneed : tree.need = 1)
    (htext : tree.text = token.literal) (hspelled : token.Spelled)
    (hstarts : token.kind.startsExpr = true) (hderives : Derives (.expr .primary tree) [token] 0) :
    PrintsAs tree [token] 0 where
  need_eq := hneed
  derives := .tighter hderives
  plain := List.forall_mem_singleton.mpr (Kind.plain_of_startsExpr hstarts)
  exists_first := htext ▸ hspelled.exists_first hstarts
  readsAs hbytes hrest := htext ▸ hrest.token hspelled (hbytes _)

variable {left right : Expr} {op : Token} {first second : List Token} {m n : Nat}

theorem plain_parenthesised {tokens : List Token} (h : ∀ token ∈ tokens, token.kind.Plain) :
    ∀ token ∈ Token.ofKind .openParen :: (tokens ++ [.ofKind .closeParen]), token.kind.Plain := by
  refine List.forall_mem_cons.mpr ⟨by simp [Token.ofKind], List.forall_mem_append.mpr ⟨h, ?_⟩⟩
  exact List.forall_mem_singleton.mpr (by simp [Token.ofKind])

/-- An operator and its operand are printed in parentheses. -/
theorem prefixOp (hop : op.kind = .dash ∨ op.kind = .not) (hspelled : op.Spelled)
    (h : PrintsAs right second n) :
    PrintsAs (.prefixOp op op.literal right)
      (.ofKind .openParen :: (op :: second ++ [.ofKind .closeParen])) (n + 2) where
  need_eq := by
    rw [need, h.need_eq]
    omega
  derives :=
    have hright : Derives (.expr .unary right) second n := h.derives.weaken (by decide)
    have hexpr : Derives (.expr .equality (.prefixOp op op.literal right)) (op :: second) (n + 1) :=
      (Derives.prefixOp hop hright).weaken (by decide)
    .tighter (.grouping rfl hexpr rfl)
  plain := by
    refine plain_parenthesised (List.forall_mem_cons.mpr ⟨?_, h.plain⟩)
    rcases hop with hop | hop <;> simp [hop]
  exists_first := ⟨0x28, _, rfl, by decide⟩
  readsAs {bytes rest} hbytes hrest := by
    have hclosing : ReadsAs (Utf8.encode ")" ++ bytes) (.ofKind .closeParen :: rest) :=
      hrest.ofKind rfl fun _ _ => rfl
    have hright := h.readsAs (Delimited.cons (by decide) bytes) hclosing
    have habsorbs : ∀ byte ∈ (Utf8.encode right.text ++ (Utf8.encode ")" ++ bytes)).head?,
        op.kind.absorbs byte = false := by
      obtain ⟨byte, more, hencode, hne⟩ := h.exists_first
      rw [hencode]
      intro other hother
      obtain rfl := Option.some.inj hother
      rcases hop with hop | hop <;> simp [hop, Kind.absorbs, hne]
    have hexpr := hright.token hspelled habsorbs
    simp only [text, Utf8.encode_append, List.append_assoc, List.cons_append, List.nil_append]
    exact hexpr.ofKind rfl fun _ _ => rfl

/-- An operator between its operands is printed in parentheses, with spaces around it. -/
theorem infixOp {stratum : Stratum} (hop : op.kind ∈ stratum.operators) (hspelled : op.Spelled)
    (hleft : PrintsAs left first m) (hright : PrintsAs right second n) :
    PrintsAs (.infixOp op left op.literal right)
      (.ofKind .openParen :: (first ++ op :: second ++ [.ofKind .closeParen]))
      (max m (n + 1) + 1) where
  need_eq := by
    rw [need, hleft.need_eq, hright.need_eq]
    omega
  derives := by
    have hexpr : Derives (.expr stratum (.infixOp op left op.literal right)) (first ++ op :: second)
        (max m (n + 1)) := by
      rcases Stratum.cases_of_mem_operators hop with rfl | rfl | rfl | rfl <;>
        exact .infixOp (hleft.derives.weaken (by decide)) hop (hright.derives.weaken (by decide))
    refine .tighter (.grouping rfl (hexpr.weaken ?_) rfl)
    cases stratum <;> decide
  plain := by
    refine plain_parenthesised (List.forall_mem_append.mpr ⟨hleft.plain, ?_⟩)
    exact List.forall_mem_cons.mpr ⟨(Kind.plain_of_mem_operators hop).1, hright.plain⟩
  exists_first := ⟨0x28, _, rfl, by decide⟩
  readsAs {bytes rest} hbytes hrest := by
    have hclosing : ReadsAs (Utf8.encode ")" ++ bytes) (.ofKind .closeParen :: rest) :=
      hrest.ofKind rfl fun _ _ => rfl
    have hspace (more : List UInt8) : Delimited (Utf8.encode " " ++ more) :=
      .cons (by decide) more
    have hsecond := hright.readsAs (Delimited.cons (by decide) bytes) hclosing
    have hoperator := hsecond.space.token hspelled (hspace _ _)
    have hexpr := hleft.readsAs (hspace _) hoperator.space
    simp only [text, Utf8.encode_append, List.append_assoc, List.cons_append, List.nil_append]
    exact hexpr.ofKind rfl fun _ _ => rfl

end Expr.PrintsAs

/-- One argument may be put before others. -/
theorem Derives.consArgument {tree : Expr} {trees : List Expr} {comma : Token}
    {first second : List Token} {m n : Nat} (htree : Derives (.expr .equality tree) first m)
    (hcomma : comma.kind = .comma) (htrees : Derives (.someArguments trees) second n) :
    Derives (.someArguments (tree :: trees)) (first ++ comma :: second) (max (m + 1) n) := by
  generalize hphrase : Phrase.someArguments trees = phrase at htrees
  induction htrees generalizing trees with
  | oneArgument hother _ =>
    cases hphrase
    exact .moreArguments (.oneArgument htree) hcomma hother
  | moreArguments _ hmore hother ih _ =>
    cases hphrase
    have hall := Derives.moreArguments (ih rfl) hmore hother
    rwa [List.append_assoc, List.cons_append, Nat.max_assoc] at hall
  | _ => cases hphrase

/-- The printed arguments are read as the tokens, which they are derived from. -/
structure Expr.ArgumentsPrintAs (trees : List Expr) (tokens : List Token) (nesting : Nat) :
    Prop where
  need_eq (m : Nat) : max (m + 1) (Expr.needs trees) = max m nesting + 1
  derives : Derives (.arguments trees) tokens nesting
  plain : ∀ token ∈ tokens, token.kind.Plain
  readsAs {bytes : List UInt8} {rest : List Token} : Delimited bytes → ReadsAs bytes rest →
    ReadsAs (Utf8.encode (", ".intercalate (Expr.texts trees)) ++ bytes) (tokens ++ rest)

/-- The arguments of a call are printed with commas between them. -/
theorem Expr.exists_argumentsPrintAs {trees : List Expr}
    (h : ∀ tree ∈ trees, ∃ tokens nesting, tree.PrintsAs tokens nesting) :
    ∃ tokens nesting, Expr.ArgumentsPrintAs trees tokens nesting := by
  induction trees with
  | nil => exact ⟨[], 0, fun m => by simp [needs], .noArguments, by simp, fun _ hrest => hrest⟩
  | cons tree trees ih =>
    obtain ⟨⟨first, m, htree⟩, hrest⟩ := List.forall_mem_cons.mp h
    obtain ⟨second, n, htrees⟩ := ih hrest
    cases trees with
    | nil =>
      refine ⟨first, m + 1, fun k => ?_,
        .arguments (.oneArgument (htree.derives.weaken (by decide))), htree.plain,
        fun hbytes hrest => ?_⟩
      · rw [needs, needs, htree.need_eq]
        omega
      · rw [texts, texts, String.intercalate_singleton]
        exact htree.readsAs hbytes hrest
    | cons next trees =>
      have hderives : Derives (.someArguments (next :: trees)) second n := by
        cases htrees.derives with
        | arguments hderives => exact hderives
      refine ⟨first ++ .ofKind .comma :: second, max (m + 1) n, fun k => ?_,
        .arguments (.consArgument (htree.derives.weaken (by decide)) rfl hderives), ?_, ?_⟩
      · have hneed := htrees.need_eq (max k (m + 1))
        rw [needs, htree.need_eq]
        omega
      · refine List.forall_mem_append.mpr ⟨htree.plain, List.forall_mem_cons.mpr ⟨?_, htrees.plain⟩⟩
        simp [Token.ofKind]
      · intro bytes rest hbytes hrest
        have hcomma : ReadsAs (Utf8.encode "," ++ _) (.ofKind .comma :: (second ++ rest)) :=
          (htrees.readsAs hbytes hrest).space.ofKind rfl fun _ _ => rfl
        have hwhole := htree.readsAs (Delimited.cons (by decide) _) hcomma
        rw [texts, texts, String.intercalate_cons_cons, ← texts]
        simp only [Utf8.encode_append, List.append_assoc, List.cons_append]
        exact hwhole

theorem Expr.PrintsAs.call {callee : Expr} {arguments : List Expr} {opening : Token}
    {first second : List Token} {m n : Nat} (hopening : opening.kind = .openParen)
    (hspelled : opening.Spelled) (hcallee : callee.PrintsAs first m)
    (harguments : Expr.ArgumentsPrintAs arguments second n) :
    PrintsAs (.call opening callee arguments)
      (first ++ opening :: (second ++ [.ofKind .closeParen])) (max m n) where
  need_eq := by
    rw [need, hcallee.need_eq, harguments.need_eq]
  derives := .call hcallee.derives hopening harguments.derives rfl
  plain := by
    refine List.forall_mem_append.mpr ⟨hcallee.plain, List.forall_mem_cons.mpr ⟨?_, ?_⟩⟩
    · simp [hopening]
    · refine List.forall_mem_append.mpr ⟨harguments.plain, ?_⟩
      exact List.forall_mem_singleton.mpr (by simp [Token.ofKind])
  exists_first := by
    obtain ⟨byte, rest, hencode, hne⟩ := hcallee.exists_first
    refine ⟨byte, rest ++ Utf8.encode (parenthesised (Expr.texts arguments)), ?_, hne⟩
    rw [text, Utf8.encode_append, hencode, List.cons_append]
  readsAs {bytes rest} hbytes hrest := by
    have hliteral : opening.literal = "(" := by
      rw [Token.Spelled, hopening] at hspelled
      exact (Option.some.inj hspelled).symm
    have hclosing : ReadsAs (Utf8.encode ")" ++ bytes) (.ofKind .closeParen :: rest) :=
      hrest.ofKind rfl fun _ _ => rfl
    have hsecond := harguments.readsAs (Delimited.cons (by decide) bytes) hclosing
    have hcall := hsecond.token hspelled fun _ _ => by rw [hopening]; rfl
    rw [hliteral] at hcall
    have hwhole := hcallee.readsAs (Delimited.cons (by decide) _) hcall
    simp only [text, parenthesised, Utf8.encode_append, List.append_assoc, List.cons_append,
      List.nil_append]
    exact hwhole

namespace Decimal

/-- Only digits have a value. -/
theorem isDigit_of_valueAfter? {chars : List Char} {before value : Nat}
    (h : valueAfter? before chars = some value) : ∀ c ∈ chars, c.isDigit := by
  induction chars generalizing before with
  | nil => exact List.forall_mem_nil _
  | cons c rest ih =>
    obtain ⟨digit, hdigit, hrest⟩ := Option.bind_eq_some_iff.mp h
    refine List.forall_mem_cons.mpr ⟨?_, ih hrest⟩
    rw [digit?] at hdigit
    split at hdigit
    · rename_i hrange
      simpa [Char.isDigit, Char.le_def] using hrange
    · contradiction

/-- What has a value is spelled as an integer. -/
theorem spells_of_value? {text : String} {value : Nat} (h : value? text.toList = some value) :
    Kind.Spells .integer text := by
  cases hchars : text.toList with
  | nil =>
    rw [hchars] at h
    contradiction
  | cons c rest =>
    rw [hchars] at h
    refine ⟨fun hempty => ?_, hchars ▸ isDigit_of_valueAfter? h⟩
    simp [hempty] at hchars

end Decimal

/-- Expressions without conditionals and functions are printed as source. -/
theorem Expr.Printable.exists_printsAs {tree : Expr} (h : tree.Printable) :
    ∃ tokens nesting, tree.PrintsAs tokens nesting := by
  induction h with
  | @identifier token hkind hspelled =>
    exact ⟨_, _, .single rfl rfl hspelled (by rw [hkind]; rfl) (.identifier hkind)⟩
  | @integer token value hkind hvalue hle =>
    have hspelled : token.Spelled := by
      rw [Token.Spelled, hkind]
      exact Decimal.spells_of_value? hvalue
    exact ⟨_, _, .single rfl rfl hspelled (by rw [hkind]; rfl) (.integer hkind hvalue hle)⟩
  | @boolean token hkind hspelled =>
    refine ⟨_, _, .single rfl rfl hspelled ?_ (.boolean hkind)⟩
    rcases hkind with hkind | hkind <;> rw [hkind] <;> rfl
  | prefixOp hop hspelled _ ih =>
    obtain ⟨tokens, nesting, hright⟩ := ih
    exact ⟨_, _, hright.prefixOp hop hspelled⟩
  | infixOp hop hspelled _ _ ihleft ihright =>
    obtain ⟨first, m, hleft⟩ := ihleft
    obtain ⟨second, n, hright⟩ := ihright
    exact ⟨_, _, .infixOp hop hspelled hleft hright⟩
  | call hopening hspelled _ _ ihcallee iharguments =>
    obtain ⟨first, m, hcallee⟩ := ihcallee
    obtain ⟨second, n, harguments⟩ := Expr.exists_argumentsPrintAs iharguments
    exact ⟨_, _, .call hopening hspelled hcallee harguments⟩

/-- The expression of a statement. -/
def Stmt.value? : Stmt → Option Expr
  | .binding _ _ value => some value
  | .returning _ value => value
  | .expression _ value => some value

/-- A statement without conditionals and functions. -/
def Stmt.Flat (tree : Stmt) : Prop := ∀ value ∈ tree.value?, value.Flat

/-- The frames that are open at once when the printed statement is read. -/
def Stmt.need (tree : Stmt) : Nat := (tree.value?.map Expr.need).getD 0

/-- A statement without conditionals and functions whose nodes agree with their tokens; the token
of an expression on its own is not printed and may be any. -/
inductive Stmt.Printable : Stmt → Prop where
  | binding {kw name : Token} {value : Expr} : kw.kind = .kwLet → kw.Spelled →
      name.kind = .identifier → name.Spelled → value.Printable →
        Printable (.binding kw (.ofToken name) value)
  | returningNothing {kw : Token} : kw.kind = .kwReturn → kw.Spelled →
      Printable (.returning kw none)
  | returning {kw : Token} {value : Expr} : kw.kind = .kwReturn → kw.Spelled → value.Printable →
      Printable (.returning kw (some value))
  | expression {token : Token} {value : Expr} : value.Printable →
      Printable (.expression token value)

/-- All expressions and statements without conditionals and functions agree with their tokens. -/
def Phrase.Printable : Phrase → Prop
  | .expr _ tree => tree.Flat → tree.Printable
  | .someArguments trees => ∀ tree ∈ trees, tree.Flat → tree.Printable
  | .arguments trees => ∀ tree ∈ trees, tree.Flat → tree.Printable
  | .block _ => True
  | .stmt _ _ tree => tree.Flat → tree.Printable
  | .stmts _ _ trees => ∀ tree ∈ trees, tree.Flat → tree.Printable

/-- What is derived from tokens as they are read agrees with them. -/
theorem Derives.printable {phrase : Phrase} {tokens : List Token} {nesting : Nat}
    (h : Derives phrase tokens nesting) (hspelled : ∀ token ∈ tokens, token.Spelled) :
    phrase.Printable := by
  induction h with
  | tighter _ ih => exact ih hspelled
  | infixOp _ hop _ ihleft ihright =>
    obtain ⟨hfirst, hrest⟩ := List.forall_mem_append.mp hspelled
    obtain ⟨hspelled, hsecond⟩ := List.forall_mem_cons.mp hrest
    rintro (_ | _ | _ | _ | ⟨hleft, hright⟩ | _)
    exact .infixOp hop hspelled (ihleft hfirst hleft) (ihright hsecond hright)
  | prefixOp hop _ ih =>
    obtain ⟨hspelled, hrest⟩ := List.forall_mem_cons.mp hspelled
    rintro (_ | _ | _ | hright | _ | _)
    exact .prefixOp hop hspelled (ih hrest hright)
  | call _ hopening _ _ ihcallee iharguments =>
    obtain ⟨hfirst, hrest⟩ := List.forall_mem_append.mp hspelled
    obtain ⟨hspelled, hrest⟩ := List.forall_mem_cons.mp hrest
    obtain ⟨hsecond, -⟩ := List.forall_mem_append.mp hrest
    rintro (_ | _ | _ | _ | _ | ⟨hcallee, harguments⟩)
    exact .call hopening hspelled (ihcallee hfirst hcallee) fun tree hmem =>
      iharguments hsecond tree hmem (harguments tree hmem)
  | identifier hkind => exact fun _ => .identifier hkind (List.forall_mem_singleton.mp hspelled)
  | integer hkind hvalue hle => exact fun _ => .integer hkind hvalue hle
  | boolean hkind => exact fun _ => .boolean hkind (List.forall_mem_singleton.mp hspelled)
  | grouping _ _ _ ih =>
    obtain ⟨-, hrest⟩ := List.forall_mem_cons.mp hspelled
    exact ih (List.forall_mem_append.mp hrest).1
  | conditional => exact fun hflat => nomatch hflat
  | conditionalElse => exact fun hflat => nomatch hflat
  | function => exact fun hflat => nomatch hflat
  | oneArgument _ ih =>
    rintro tree hmem
    obtain rfl := List.mem_singleton.mp hmem
    exact ih hspelled
  | moreArguments _ _ _ ihfirst ihsecond =>
    obtain ⟨hfirst, hrest⟩ := List.forall_mem_append.mp hspelled
    obtain ⟨-, hsecond⟩ := List.forall_mem_cons.mp hrest
    intro tree hmem
    rcases List.mem_append.mp hmem with hmem | hmem
    · exact ihfirst hfirst tree hmem
    · obtain rfl := List.mem_singleton.mp hmem
      exact ihsecond hsecond
  | noArguments => exact List.forall_mem_nil _
  | arguments _ ih => exact ih hspelled
  | block => trivial
  | binding hkw hname _ _ _ ih =>
    simp only [List.forall_mem_cons, List.forall_mem_append] at hspelled
    obtain ⟨hkwSpelled, hnameSpelled, -, hvalue, -⟩ := hspelled
    exact fun hflat => .binding hkw hkwSpelled hname hnameSpelled (ih hvalue (hflat _ rfl))
  | returningNothing hkw _ =>
    exact fun _ => .returningNothing hkw (List.forall_mem_cons.mp hspelled).1
  | returning hkw _ _ ih =>
    simp only [List.forall_mem_cons, List.forall_mem_append] at hspelled
    obtain ⟨hkwSpelled, hvalue, -⟩ := hspelled
    exact fun hflat => .returning hkw hkwSpelled (ih hvalue (hflat _ rfl))
  | expression _ _ ih =>
    rw [← List.cons_append] at hspelled
    exact fun hflat => .expression (ih (List.forall_mem_append.mp hspelled).1 (hflat _ rfl))
  | noStmts => exact List.forall_mem_nil _
  | moreStmts _ _ ihfirst ihrest =>
    obtain ⟨hfirst, hrest⟩ := List.forall_mem_append.mp hspelled
    exact List.forall_mem_cons.mpr ⟨ihfirst hfirst, ihrest hrest⟩

/-- The statements that are read from a source agree with their tokens. -/
theorem printable_of_parse {source : String} {file : Option String} {tree : Stmt}
    (h : tree ∈ (parse source file).1.statements) (hflat : tree.Flat) : tree.Printable := by
  obtain ⟨attempt, hmem, hresult⟩ := Attempt.exists_of_mem_program h
  obtain ⟨first, second, hsplit⟩ := List.append_of_mem hmem
  obtain ⟨hreaches, -⟩ := of_attempts_eq_append hsplit
  obtain ⟨houtside, hattempt⟩ := outside_of_mem_sourceAttempts hmem
  obtain ⟨⟨nesting, -, hderives⟩, htakes⟩ := Attempt.derives_of_result hattempt houtside hresult
  refine hderives.printable (fun token htoken => ?_) hflat
  have hstart : token ∈ attempt.start.tokens := by
    have htail : attempt.start.tokens = attempt.tokens ++ _ := htakes.tail_eq
    rw [htail]
    exact List.mem_append_left _ htoken
  have hcontent : token ∈ (Lexer.ofString source file).content :=
    hreaches.tokens_suffix.subset hstart
  exact Lexer.spelled_of_mem_content hcontent (hderives.contents.legal token htoken)

end LetScript
