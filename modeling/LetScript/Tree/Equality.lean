import LetScript.Tree.Basic

/-!
# Deciding whether two trees are equal

Two trees are equal when they agree in shape and in everything their nodes keep, the spans and
file names of the tokens included. The comparison runs down both trees at once; the main
statement is that it answers `true` exactly on equal trees, so equality of expressions,
statements, blocks and programs is decidable.
-/

namespace LetScript

mutual

/-- Whether two expressions are equal. -/
def Expr.same : Expr → Expr → Bool
  | .identifier a, .identifier b => a = b
  | .integer t a, .integer u b => t = u && a = b
  | .boolean t a, .boolean u b => t = u && a = b
  | .prefixOp t o a, .prefixOp u p b => t = u && o = p && a.same b
  | .infixOp t a o b, .infixOp u c p d => t = u && a.same c && o = p && b.same d
  | .conditional t a b none, .conditional u c d none => t = u && a.same c && b.same d
  | .conditional t a b (some e), .conditional u c d (some f) =>
    t = u && a.same c && b.same d && e.same f
  | .function t ps a, .function u qs b => t = u && ps = qs && a.same b
  | .call t a es, .call u b fs => t = u && a.same b && Expr.sameAll es fs
  | _, _ => false

/-- Whether two lists of expressions are equal. -/
def Expr.sameAll : List Expr → List Expr → Bool
  | [], [] => true
  | a :: as, b :: bs => a.same b && Expr.sameAll as bs
  | _, _ => false

/-- Whether two statements are equal. -/
def Stmt.same : Stmt → Stmt → Bool
  | .binding t n a, .binding u m b => t = u && n = m && a.same b
  | .returning t none, .returning u none => t = u
  | .returning t (some a), .returning u (some b) => t = u && a.same b
  | .expression t a, .expression u b => t = u && a.same b
  | _, _ => false

/-- Whether two lists of statements are equal. -/
def Stmt.sameAll : List Stmt → List Stmt → Bool
  | [], [] => true
  | a :: as, b :: bs => a.same b && Stmt.sameAll as bs
  | _, _ => false

/-- Whether two blocks are equal. -/
def Block.same : Block → Block → Bool
  | ⟨t, as⟩, ⟨u, bs⟩ => t = u && Stmt.sameAll as bs

end

mutual

theorem Expr.same_iff : (a b : Expr) → (a.same b = true ↔ a = b)
  | .identifier _, b => by cases b <;> simp [Expr.same]
  | .integer _ _, b => by cases b <;> simp [Expr.same]
  | .boolean _ _, b => by cases b <;> simp [Expr.same]
  | .prefixOp _ _ a, b => by cases b <;> simp [Expr.same, Expr.same_iff a, and_assoc]
  | .infixOp _ a _ c, b => by
    cases b <;> simp [Expr.same, Expr.same_iff a, Expr.same_iff c, and_assoc]
  | .conditional _ a c none, b => by
    rcases b with _ | _ | _ | _ | _ | ⟨_, _, _, _ | _⟩ | _ | _ <;>
      simp [Expr.same, Expr.same_iff a, Block.same_iff c, and_assoc]
  | .conditional _ a c (some d), b => by
    rcases b with _ | _ | _ | _ | _ | ⟨_, _, _, _ | _⟩ | _ | _ <;>
      simp [Expr.same, Expr.same_iff a, Block.same_iff c, Block.same_iff d, and_assoc]
  | .function _ _ a, b => by cases b <;> simp [Expr.same, Block.same_iff a, and_assoc]
  | .call _ a as, b => by
    cases b <;> simp [Expr.same, Expr.same_iff a, Expr.sameAll_iff as, and_assoc]

theorem Expr.sameAll_iff : (as bs : List Expr) → (Expr.sameAll as bs = true ↔ as = bs)
  | [], bs => by cases bs <;> simp [Expr.sameAll]
  | a :: as, bs => by cases bs <;> simp [Expr.sameAll, Expr.same_iff a, Expr.sameAll_iff as]

theorem Stmt.same_iff : (a b : Stmt) → (a.same b = true ↔ a = b)
  | .binding _ _ a, b => by cases b <;> simp [Stmt.same, Expr.same_iff a, and_assoc]
  | .returning _ none, b => by rcases b with _ | ⟨_, _ | _⟩ | _ <;> simp [Stmt.same]
  | .returning _ (some a), b => by
    rcases b with _ | ⟨_, _ | _⟩ | _ <;> simp [Stmt.same, Expr.same_iff a]
  | .expression _ a, b => by cases b <;> simp [Stmt.same, Expr.same_iff a]

theorem Stmt.sameAll_iff : (as bs : List Stmt) → (Stmt.sameAll as bs = true ↔ as = bs)
  | [], bs => by cases bs <;> simp [Stmt.sameAll]
  | a :: as, bs => by cases bs <;> simp [Stmt.sameAll, Stmt.same_iff a, Stmt.sameAll_iff as]

theorem Block.same_iff : (a b : Block) → (a.same b = true ↔ a = b)
  | ⟨_, as⟩, ⟨_, bs⟩ => by simp [Block.same, Stmt.sameAll_iff as]

end

instance : DecidableEq Expr := fun a b => decidable_of_iff _ (Expr.same_iff a b)

instance : DecidableEq Stmt := fun a b => decidable_of_iff _ (Stmt.same_iff a b)

instance : DecidableEq Block := fun a b => decidable_of_iff _ (Block.same_iff a b)

instance : DecidableEq Program := fun a b =>
  decidable_of_iff (a.statements = b.statements) (by cases a; cases b; simp)

end LetScript
