/-!
# Blank characters

The characters with the Unicode property White_Space, and the removal of blanks from the ends of
a text. There are twenty-five of them: seven runs and single characters from the tabulator to
the ideographic space.
-/

namespace LetScript

/-- The runs of characters with the property White_Space, each by its first and last code
point. -/
def blankRanges : List (Nat × Nat) :=
  [(0x09, 0x0d), (0x20, 0x20), (0x85, 0x85), (0xa0, 0xa0), (0x1680, 0x1680), (0x2000, 0x200a),
    (0x2028, 0x2029), (0x202f, 0x202f), (0x205f, 0x205f), (0x3000, 0x3000)]

/-- Whether a character has the property White_Space. -/
def isBlank (c : Char) : Bool :=
  blankRanges.any fun range => range.1 ≤ c.toNat && c.toNat ≤ range.2

/-- The characters without the blank ones at their end. -/
def trimBlankEnd (chars : List Char) : List Char :=
  (chars.reverse.dropWhile isBlank).reverse

/-- The characters without the blank ones at either end. -/
def trimBlank (chars : List Char) : List Char :=
  trimBlankEnd (chars.dropWhile isBlank)

end LetScript
