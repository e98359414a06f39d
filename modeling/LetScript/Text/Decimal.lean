/-!
# Decimal numbers

The value of a run of decimal digits, most significant first. Only the ten ASCII digits are read;
there is no sign, and a run without digits has no value.
-/

namespace LetScript.Decimal

/-- The value of an ASCII digit. -/
def digit? (c : Char) : Option Nat :=
  if '0' ≤ c ∧ c ≤ '9' then some (c.toNat - '0'.toNat) else none

/-- The value of the digits in `chars`, written after digits of the value `before`. -/
def valueAfter? (before : Nat) : List Char → Option Nat
  | [] => some before
  | c :: rest => do valueAfter? (10 * before + (← digit? c)) rest

/-- The value of a nonempty run of digits. -/
def value? : List Char → Option Nat
  | [] => none
  | c :: rest => valueAfter? 0 (c :: rest)

end LetScript.Decimal
