import LetScript.Grammar.Table
import LetScript.Proofs.Derivation

/-!
# Strata and powers

The table of rules gives each operator a power, and the grammar gives it a stratum. The two tell
the same: an operator has the power of its stratum, and reading what binds tighter than a power
is reading a phrase of the stratum above that power. A phrase of a stratum ends before any token
whose power is at most that of the stratum.
-/

namespace LetScript

namespace Stratum

/-- The place of a stratum among the seven. -/
def rank : Stratum → Nat
  | equality => 1
  | relational => 2
  | additive => 3
  | multiplicative => 4
  | unary => 5
  | call => 6
  | primary => 7

instance : LE Stratum := ⟨fun weaker stronger => weaker.rank ≤ stronger.rank⟩

instance (a b : Stratum) : Decidable (a ≤ b) := inferInstanceAs (Decidable (a.rank ≤ b.rank))

/-- The power of what continues a phrase of the stratum; a primary expression is continued by
calls. -/
def power : Stratum → Power
  | equality => .equality
  | relational => .relational
  | additive => .additive
  | multiplicative => .multiplicative
  | unary => .unary
  | call => .call
  | primary => .call

/-- The stratum of the expressions whose operators bind tighter than a power. -/
def above : Power → Stratum
  | .lowest => equality
  | .equality => relational
  | .relational => additive
  | .additive => multiplicative
  | .multiplicative => unary
  | .unary => unary
  | .call => unary

/-- Prefix operators may stand below every operator between two operands. -/
theorem above_le_unary (power : Power) : above power ≤ unary := by
  cases power <;> decide

theorem le_trans {a b c : Stratum} (hab : a ≤ b) (hbc : b ≤ c) : a ≤ c := Nat.le_trans hab hbc

theorem rank_injective {a b : Stratum} (h : a.rank = b.rank) : a = b := by
  cases a <;> cases b <;> first | rfl | contradiction

/-- There is one more rank up to the next tighter stratum, where there is one. -/
theorem rank_tighter {stratum other : Stratum} (h : stratum.rank < other.rank) :
    stratum.tighter.rank = stratum.rank + 1 := by
  cases stratum <;> first | rfl | (cases other <;> simp [rank] at h)

theorem le_tighter (stratum : Stratum) : stratum ≤ stratum.tighter := by
  cases stratum <;> decide

/-- The strata with operators are the first four. -/
theorem cases_of_mem_operators {kind : Kind} {stratum : Stratum}
    (h : kind ∈ stratum.operators) :
    stratum = equality ∨ stratum = relational ∨ stratum = additive ∨ stratum = multiplicative := by
  cases stratum <;> simp_all [operators]

/-- A right operand is read with the power of its operator. -/
theorem above_power {kind : Kind} {stratum : Stratum} (h : kind ∈ stratum.operators) :
    above stratum.power = stratum.tighter := by
  rcases cases_of_mem_operators h with rfl | rfl | rfl | rfl <;> rfl

/-- An operator binds tighter than a power exactly if its stratum is not below the power's. -/
theorem above_le_iff {kind : Kind} {stratum : Stratum} (h : kind ∈ stratum.operators)
    (power : Power) : above power ≤ stratum ↔ power < stratum.power := by
  rcases cases_of_mem_operators h with rfl | rfl | rfl | rfl <;> cases power <;> decide

/-- A phrase that an operator may follow is at least of the operator's stratum. -/
theorem le_of_power_le {kind : Kind} {stratum other : Stratum} (h : kind ∈ stratum.operators)
    (hle : stratum.power ≤ other.power) : stratum ≤ other := by
  rcases cases_of_mem_operators h with rfl | rfl | rfl | rfl <;> revert hle <;> cases other <;>
    decide

/-- A phrase that a call may follow is at least a call. -/
theorem call_le_of_power_le {stratum : Stratum} (h : Power.call ≤ stratum.power) :
    call ≤ stratum := by
  revert h
  cases stratum <;> decide

theorem power_le_power {stratum other : Stratum} (h : stratum ≤ other) :
    stratum.power ≤ other.power := by
  revert h
  cases stratum <;> cases other <;> decide

end Stratum

namespace Power

theorem le_call (power : Power) : power ≤ call := by
  cases power <;> decide

theorem le_trans {a b c : Power} (hab : a ≤ b) (hbc : b ≤ c) : a ≤ c := Nat.le_trans hab hbc

theorem not_lt {a b : Power} : ¬ a < b ↔ b ≤ a := Nat.not_lt

end Power

namespace Table

theorem power_of_mem_operators {kind : Kind} {stratum : Stratum}
    (h : kind ∈ stratum.operators) : standard.power kind = stratum.power := by
  rcases Stratum.cases_of_mem_operators h with rfl | rfl | rfl | rfl <;>
    simp only [Stratum.operators, List.mem_cons, List.not_mem_nil, or_false] at h <;>
    rcases h with rfl | rfl <;> rfl

theorem infixRule_of_mem_operators {kind : Kind} {stratum : Stratum}
    (h : kind ∈ stratum.operators) :
    standard.infixRule kind = some (stratum.power, .infixOp) := by
  rcases Stratum.cases_of_mem_operators h with rfl | rfl | rfl | rfl <;>
    simp only [Stratum.operators, List.mem_cons, List.not_mem_nil, or_false] at h <;>
    rcases h with rfl | rfl <;> rfl

/-- An operator that binds tighter than `power` is read as one. -/
theorem infixRuleAbove_of_mem_operators {kind : Kind} {stratum : Stratum} {power : Power}
    (h : kind ∈ stratum.operators) (hlt : power < stratum.power) :
    standard.infixRuleAbove power kind = some .infixOp := by
  rw [infixRuleAbove, power_of_mem_operators h, if_pos hlt, infixRule_of_mem_operators h]
  rfl

/-- What is read between two operands is an operator. -/
theorem exists_stratum_of_infixOp {kind : Kind} {power : Power}
    (h : standard.infixRuleAbove power kind = some .infixOp) :
    power < standard.power kind ∧ ∃ stratum : Stratum, kind ∈ stratum.operators := by
  rw [infixRuleAbove] at h
  split at h
  · refine ⟨‹_›, ?_⟩
    cases kind <;> simp [standard] at h <;> first
      | exact ⟨.equality, by decide⟩
      | exact ⟨.relational, by decide⟩
      | exact ⟨.additive, by decide⟩
      | exact ⟨.multiplicative, by decide⟩
  · contradiction

/-- What is read as a call is an opening parenthesis. -/
theorem eq_openParen_of_call {kind : Kind} {power : Power}
    (h : standard.infixRuleAbove power kind = some .call) : kind = .openParen := by
  rw [infixRuleAbove] at h
  split at h
  · cases kind <;> simp [standard] at h
    rfl
  · contradiction

/-- An expression is not continued by a token that binds no tighter than its surroundings, and
only by one that does. -/
theorem infixRuleAbove_eq_none_iff {kind : Kind} {power : Power} :
    standard.infixRuleAbove power kind = none ↔ standard.power kind ≤ power := by
  rw [infixRuleAbove]
  split
  · rename_i hlt
    refine iff_of_false ?_ (Nat.not_le.mpr hlt)
    revert hlt
    cases kind <;> simp [standard, Table.power] <;> cases power <;> decide
  · rename_i hlt
    exact iff_of_true rfl (Power.not_lt.mp hlt)

/-- Tokens that continue an expression are those with a power. -/
theorem power_le_lowest_iff {kind : Kind} :
    standard.power kind ≤ .lowest ↔ ¬ kind.continuesExpr := by
  constructor
  · rintro hle (rfl | ⟨stratum, hmem⟩)
    · revert hle
      decide
    · rw [power_of_mem_operators hmem] at hle
      revert hle
      rcases Stratum.cases_of_mem_operators hmem with rfl | rfl | rfl | rfl <;> decide
  · intro hnot
    cases kind <;> first
      | decide
      | exact absurd (.inl rfl) hnot
      | exact absurd (.inr ⟨.equality, by decide⟩) hnot
      | exact absurd (.inr ⟨.relational, by decide⟩) hnot
      | exact absurd (.inr ⟨.additive, by decide⟩) hnot
      | exact absurd (.inr ⟨.multiplicative, by decide⟩) hnot

/-- The kinds with a rule at the start of an expression. -/
def startKinds : PrefixRule → Kind → Prop
  | .identifier, kind => kind = .identifier
  | .integer, kind => kind = .integer
  | .boolean, kind => kind = .kwTrue ∨ kind = .kwFalse
  | .prefixOp, kind => kind = .dash ∨ kind = .not
  | .grouping, kind => kind = .openParen
  | .conditional, kind => kind = .kwIf
  | .function, kind => kind = .kwFn

theorem kind_of_prefixRule {kind : Kind} {rule : PrefixRule}
    (h : standard.prefixRule kind = some rule) : startKinds rule kind := by
  cases kind <;> simp [standard] at h <;> subst h <;> simp [startKinds]

end Table

/-- An integer is read exactly from digits of a value up to the largest one. -/
theorem integerValue?_eq_some {literal : String} {value : Int64}
    (h : integerValue? literal = some value) :
    ∃ number, Decimal.value? literal.toList = some number ∧ number ≤ maxInteger ∧
      value = .ofNat number := by
  unfold integerValue? at h
  split at h
  · contradiction
  · rename_i number hnumber
    split at h
    · exact ⟨number, hnumber, ‹_›, (Option.some.inj h).symm⟩
    · contradiction

/-- A phrase of a stratum is one of every weaker stratum. -/
theorem Derives.weaken {stratum other : Stratum}
    {tree : Expr} {tokens : List Token} {nesting : Nat}
    (h : Derives (.expr stratum tree) tokens nesting) (hle : other ≤ stratum) :
    Derives (.expr other tree) tokens nesting := by
  induction hgap : stratum.rank - other.rank generalizing other with
  | zero =>
    obtain rfl : other = stratum := Stratum.rank_injective (Nat.le_antisymm hle (by omega))
    exact h
  | succ gap ih =>
    have hrank : other.tighter.rank = other.rank + 1 :=
      Stratum.rank_tighter (show _ < stratum.rank by omega)
    exact .tighter (ih (show other.tighter.rank ≤ stratum.rank by omega) (by omega))

end LetScript
