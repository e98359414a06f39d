import LetScript.Proofs.Attempts

/-!
# How high the trees of a program are

The nesting limit bounds the frames that are open at once while a source is read. A left operand
and a callee are complete before the operator or the call around them is read and so open no
frame: a node is put on top of them without one. The limit therefore bounds the height of a tree
only if a step down to a left operand or a callee counts nothing; such steps in a row may be as
many as the source has operators and calls in a row.

`heightBy` counts such a step as it is told to. Counting one gives the height of the tree, and
counting none gives what the grammar bounds by the frames. Between the two stands the longest
row of such steps.
-/

namespace LetScript

mutual

/-- The expressions and blocks on the longest way down an expression, where a step to a left
operand or a callee counts `along`. -/
def Expr.heightBy (along : Nat) : Expr → Nat
  | .identifier _ => 1
  | .integer _ _ => 1
  | .boolean _ _ => 1
  | .prefixOp _ _ right => right.heightBy along + 1
  | .infixOp _ left _ right => max (left.heightBy along + along) (right.heightBy along + 1)
  | .conditional _ condition consequence none =>
    max (condition.heightBy along) (consequence.heightBy along) + 1
  | .conditional _ condition consequence (some alternative) =>
    max (condition.heightBy along)
      (max (consequence.heightBy along) (alternative.heightBy along)) + 1
  | .function _ _ body => body.heightBy along + 1
  | .call _ callee arguments =>
    max (callee.heightBy along + along) (Expr.heightsBy along arguments + 1)

/-- The height of the highest of several expressions. -/
def Expr.heightsBy (along : Nat) : List Expr → Nat
  | [] => 0
  | tree :: trees => max (tree.heightBy along) (Expr.heightsBy along trees)

/-- The height of the expression in a statement. -/
def Stmt.heightBy (along : Nat) : Stmt → Nat
  | .binding _ _ value => value.heightBy along
  | .returning _ none => 0
  | .returning _ (some value) => value.heightBy along
  | .expression _ value => value.heightBy along

/-- The height of the highest of several statements. -/
def Stmt.heightsBy (along : Nat) : List Stmt → Nat
  | [] => 0
  | tree :: trees => max (tree.heightBy along) (Stmt.heightsBy along trees)

/-- The height of a block, which counts itself. -/
def Block.heightBy (along : Nat) : Block → Nat
  | ⟨_, statements⟩ => Stmt.heightsBy along statements + 1

end

/-- The steps to left operands and callees in a row from the top of an expression on. -/
def Expr.leftRun : Expr → Nat
  | .infixOp _ left _ _ => left.leftRun + 1
  | .call _ callee _ => callee.leftRun + 1
  | _ => 0

mutual

/-- The longest row of steps to left operands and callees anywhere in an expression. -/
def Expr.longestRun : Expr → Nat
  | .identifier _ => 0
  | .integer _ _ => 0
  | .boolean _ _ => 0
  | .prefixOp _ _ right => right.longestRun
  | .infixOp _ left _ right => max (left.leftRun + 1) (max left.longestRun right.longestRun)
  | .conditional _ condition consequence none => max condition.longestRun consequence.longestRun
  | .conditional _ condition consequence (some alternative) =>
    max condition.longestRun (max consequence.longestRun alternative.longestRun)
  | .function _ _ body => body.longestRun
  | .call _ callee arguments =>
    max (callee.leftRun + 1) (max callee.longestRun (Expr.longestRuns arguments))

/-- The longest row in several expressions. -/
def Expr.longestRuns : List Expr → Nat
  | [] => 0
  | tree :: trees => max tree.longestRun (Expr.longestRuns trees)

/-- The longest row in a statement. -/
def Stmt.longestRun : Stmt → Nat
  | .binding _ _ value => value.longestRun
  | .returning _ none => 0
  | .returning _ (some value) => value.longestRun
  | .expression _ value => value.longestRun

/-- The longest row in several statements. -/
def Stmt.longestRuns : List Stmt → Nat
  | [] => 0
  | tree :: trees => max tree.longestRun (Stmt.longestRuns trees)

/-- The longest row in a block. -/
def Block.longestRun : Block → Nat
  | ⟨_, statements⟩ => Stmt.longestRuns statements

end

/-- The height of a statement's expression: the expressions and blocks on the longest way down
to a leaf. -/
def Stmt.height (tree : Stmt) : Nat := tree.heightBy 1

/-- The height of a statement's expression where left operands and callees stand no deeper than
what is put on top of them. -/
def Stmt.frames (tree : Stmt) : Nat := tree.heightBy 0

theorem Expr.heightsBy_append (along : Nat) (first second : List Expr) :
    Expr.heightsBy along (first ++ second) =
      max (Expr.heightsBy along first) (Expr.heightsBy along second) := by
  induction first with
  | nil => simp [Expr.heightsBy]
  | cons tree trees ih => simp [Expr.heightsBy, ih, Nat.max_assoc]

/-- What a phrase contributes to the height, frames counted alone, is bounded by the frames open
inside it; an expression stands in one more itself. -/
def Phrase.Within (nesting : Nat) : Phrase → Prop
  | expr _ tree => tree.heightBy 0 ≤ nesting + 1
  | someArguments trees => Expr.heightsBy 0 trees ≤ nesting
  | arguments trees => Expr.heightsBy 0 trees ≤ nesting
  | block tree => tree.heightBy 0 ≤ nesting
  | stmt _ _ tree => tree.heightBy 0 ≤ nesting
  | stmts _ _ trees => Stmt.heightsBy 0 trees ≤ nesting

/-- Every rule of the grammar opens a frame wherever it goes down, except to a left operand or a
callee. -/
theorem Derives.within {phrase : Phrase} {tokens : List Token} {nesting : Nat}
    (h : Derives phrase tokens nesting) : phrase.Within nesting := by
  induction h with
  | tighter _ ih => exact ih
  | infixOp _ _ _ ihleft ihright =>
    simp only [Phrase.Within, Expr.heightBy] at ihleft ihright ⊢
    omega
  | prefixOp _ _ ih =>
    simp only [Phrase.Within, Expr.heightBy] at ih ⊢
    omega
  | call _ _ _ _ ihcallee iharguments =>
    simp only [Phrase.Within, Expr.heightBy] at ihcallee iharguments ⊢
    omega
  | identifier _ => simp [Phrase.Within, Expr.heightBy]
  | integer _ _ _ => simp [Phrase.Within, Expr.heightBy]
  | boolean _ => simp [Phrase.Within, Expr.heightBy]
  | grouping _ _ _ ih =>
    simp only [Phrase.Within] at ih ⊢
    omega
  | conditional _ _ _ _ _ ihcondition ihblock =>
    simp only [Phrase.Within, Expr.heightBy] at ihcondition ihblock ⊢
    omega
  | conditionalElse _ _ _ _ _ _ _ ihcondition ihfirst ihsecond =>
    simp only [Phrase.Within, Expr.heightBy] at ihcondition ihfirst ihsecond ⊢
    omega
  | function _ _ _ _ _ ih =>
    simp only [Phrase.Within, Expr.heightBy] at ih ⊢
    omega
  | oneArgument _ ih =>
    simp only [Phrase.Within, Expr.heightsBy] at ih ⊢
    omega
  | moreArguments _ _ _ ihfirst ihsecond =>
    simp only [Phrase.Within, Expr.heightsBy_append, Expr.heightsBy] at ihfirst ihsecond ⊢
    omega
  | noArguments => simp [Phrase.Within, Expr.heightsBy]
  | arguments _ ih => exact ih
  | block _ _ _ ih =>
    simp only [Phrase.Within, Block.heightBy] at ih ⊢
    omega
  | binding _ _ _ _ _ ih => exact ih
  | returningNothing _ _ => simp [Phrase.Within, Stmt.heightBy]
  | returning _ _ _ ih => exact ih
  | expression _ _ ih => exact ih
  | noStmts => simp [Phrase.Within, Stmt.heightsBy]
  | moreStmts _ _ ihfirst ihrest =>
    simp only [Phrase.Within, Stmt.heightsBy] at ihfirst ihrest ⊢
    omega

theorem Expr.leftRun_le_longestRun (tree : Expr) : tree.leftRun ≤ tree.longestRun := by
  cases tree with
  | infixOp => simp only [leftRun, longestRun]; omega
  | call => simp only [leftRun, longestRun]; omega
  | _ => simp [leftRun]

/-- Without the steps to the left from its top, an expression is only as many times higher. -/
theorem Expr.heightBy_one_le_of_leftRun {run : Nat} {tree : Expr} (hrun : tree.longestRun ≤ run)
    (h : tree.heightBy 1 + run ≤ tree.heightBy 0 * (run + 1) + tree.leftRun) :
    tree.heightBy 1 ≤ tree.heightBy 0 * (run + 1) := by
  have hleft := Nat.le_trans tree.leftRun_le_longestRun hrun
  omega

mutual

/-- Counting the steps to the left makes an expression at most as many times higher as a row of
them is long, and one more. -/
theorem Expr.heightBy_one_le {run : Nat} : (tree : Expr) → tree.longestRun ≤ run →
    tree.heightBy 1 + run ≤ tree.heightBy 0 * (run + 1) + tree.leftRun
  | .identifier _, _ => by simp only [Expr.heightBy, Expr.leftRun]; omega
  | .integer _ _, _ => by simp only [Expr.heightBy, Expr.leftRun]; omega
  | .boolean _ _, _ => by simp only [Expr.heightBy, Expr.leftRun]; omega
  | .prefixOp _ _ right, h => by
    simp only [Expr.longestRun] at h
    have hright := Expr.heightBy_one_le_of_leftRun h (right.heightBy_one_le h)
    simp only [Expr.heightBy, Expr.leftRun, Nat.add_mul]
    omega
  | .infixOp _ left _ right, h => by
    simp only [Expr.longestRun, Nat.max_le] at h
    have hleft := left.heightBy_one_le h.2.1
    have hright := Expr.heightBy_one_le_of_leftRun h.2.2 (right.heightBy_one_le h.2.2)
    simp only [Expr.heightBy, Expr.leftRun, Nat.add_mul, ← Nat.mul_max_mul_right]
    omega
  | .conditional _ condition consequence none, h => by
    simp only [Expr.longestRun, Nat.max_le] at h
    have hcondition := Expr.heightBy_one_le_of_leftRun h.1 (condition.heightBy_one_le h.1)
    have hfirst := consequence.heightBy_one_le h.2
    simp only [Expr.heightBy, Expr.leftRun, Nat.add_mul, ← Nat.mul_max_mul_right]
    omega
  | .conditional _ condition consequence (some alternative), h => by
    simp only [Expr.longestRun, Nat.max_le] at h
    have hcondition := Expr.heightBy_one_le_of_leftRun h.1 (condition.heightBy_one_le h.1)
    have hfirst := consequence.heightBy_one_le h.2.1
    have hsecond := alternative.heightBy_one_le h.2.2
    simp only [Expr.heightBy, Expr.leftRun, Nat.add_mul, ← Nat.mul_max_mul_right]
    omega
  | .function _ _ body, h => by
    have hbody := body.heightBy_one_le h
    simp only [Expr.heightBy, Expr.leftRun, Nat.add_mul]
    omega
  | .call _ callee arguments, h => by
    simp only [Expr.longestRun, Nat.max_le] at h
    have hcallee := callee.heightBy_one_le h.2.1
    have harguments := Expr.heightsBy_one_le arguments h.2.2
    simp only [Expr.heightBy, Expr.leftRun, Nat.add_mul, ← Nat.mul_max_mul_right]
    omega

theorem Expr.heightsBy_one_le {run : Nat} : (trees : List Expr) → Expr.longestRuns trees ≤ run →
    Expr.heightsBy 1 trees ≤ Expr.heightsBy 0 trees * (run + 1)
  | [], _ => by simp [Expr.heightsBy]
  | tree :: trees, h => by
    simp only [Expr.longestRuns, Nat.max_le] at h
    have htree := Expr.heightBy_one_le_of_leftRun h.1 (tree.heightBy_one_le h.1)
    have htrees := Expr.heightsBy_one_le trees h.2
    simp only [Expr.heightsBy, ← Nat.mul_max_mul_right]
    omega

theorem Stmt.heightBy_one_le {run : Nat} : (tree : Stmt) → tree.longestRun ≤ run →
    tree.heightBy 1 ≤ tree.heightBy 0 * (run + 1)
  | .binding _ _ value, h => Expr.heightBy_one_le_of_leftRun h (value.heightBy_one_le h)
  | .returning _ none, _ => by simp [Stmt.heightBy]
  | .returning _ (some value), h => Expr.heightBy_one_le_of_leftRun h (value.heightBy_one_le h)
  | .expression _ value, h => Expr.heightBy_one_le_of_leftRun h (value.heightBy_one_le h)

theorem Stmt.heightsBy_one_le {run : Nat} : (trees : List Stmt) → Stmt.longestRuns trees ≤ run →
    Stmt.heightsBy 1 trees ≤ Stmt.heightsBy 0 trees * (run + 1)
  | [], _ => by simp [Stmt.heightsBy]
  | tree :: trees, h => by
    simp only [Stmt.longestRuns, Nat.max_le] at h
    have htree := tree.heightBy_one_le h.1
    have htrees := Stmt.heightsBy_one_le trees h.2
    simp only [Stmt.heightsBy, ← Nat.mul_max_mul_right]
    omega

theorem Block.heightBy_one_le {run : Nat} : (tree : Block) → tree.longestRun ≤ run →
    tree.heightBy 1 + run ≤ tree.heightBy 0 * (run + 1)
  | ⟨_, statements⟩, h => by
    have hstatements := Stmt.heightsBy_one_le statements h
    simp only [Block.heightBy, Nat.add_mul]
    omega

end

/-- No statement of a program needs more frames than may be open, and its height exceeds the
limit only by its rows of left operands and callees. -/
theorem height_le (source : String) (file : Option String) (tree : Stmt)
    (hmem : tree ∈ (parse source file).1.statements) :
    tree.frames ≤ nestingLimit ∧ tree.height ≤ nestingLimit * (tree.longestRun + 1) := by
  obtain ⟨attempt, hattempt, hresult⟩ := Attempt.exists_of_mem_program hmem
  obtain ⟨houtside, heq⟩ := outside_of_mem_sourceAttempts hattempt
  obtain ⟨⟨nesting, hnesting, hderives⟩, -⟩ := Attempt.derives_of_result heq houtside hresult
  have hframes : tree.frames ≤ nestingLimit := Nat.le_trans hderives.within hnesting
  have hheight := tree.heightBy_one_le (Nat.le_refl _)
  exact ⟨hframes, Nat.le_trans hheight (Nat.mul_le_mul_right _ hframes)⟩

/-- In `1 + 2 * 3 + f(4)(5)` two of the steps down to `2` open a frame and one does not. -/
theorem height_le_of_operators :
    ∃ tree ∈ (parse "let x = 1 + 2 * 3 + f(4)(5);" none).1.statements,
      tree.frames = 3 ∧ tree.height = 4 ∧ tree.longestRun = 2 ∧
        tree.frames ≤ nestingLimit ∧ tree.height ≤ nestingLimit * (tree.longestRun + 1) := by
  have hread : ∃ tree ∈ (parse "let x = 1 + 2 * 3 + f(4)(5);" none).1.statements,
      tree.frames = 3 ∧ tree.height = 4 ∧ tree.longestRun = 2 := by decide +kernel
  obtain ⟨tree, hmem, hframes, hheight, hrun⟩ := hread
  exact ⟨tree, hmem, hframes, hheight, hrun, height_le _ _ tree hmem⟩

/-- The limit does not bound the height: a sum of 101 operands is that high. -/
theorem exists_nestingLimit_lt_height :
    ∃ tree ∈ (parse (String.join (List.replicate 100 "x+") ++ "x") none).1.statements,
      tree.height = 101 ∧ nestingLimit < tree.height := by
  decide +kernel

end LetScript
