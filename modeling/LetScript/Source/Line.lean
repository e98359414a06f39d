/-!
# Lines of a source

A source is cut into lines after each line feed; what follows the last one is a line as well,
and it may be empty. Looking a byte up gives the number of its line, counted from one, the
line with its line feed, and how far into the line the byte stands. An offset at or past the end
stands for the end of the source.
-/

namespace LetScript

/-- How many bytes the characters take in UTF-8. -/
def byteCount : List Char → Nat
  | [] => 0
  | c :: rest => c.utf8Size + byteCount rest

@[simp] theorem byteCount_append (first second : List Char) :
    byteCount (first ++ second) = byteCount first + byteCount second := by
  induction first with
  | nil => simp [byteCount]
  | cons c rest ih => simp [byteCount, ih, Nat.add_assoc]

/-- Where a byte stands: the number and the text of its line, and its offset in that line. -/
structure Location where
  number : Nat
  text : String
  offset : Nat
deriving DecidableEq, Repr

namespace Location

/-- The location of byte `offset` in `chars`, whose first line has the number `number`. -/
def within (chars : List Char) (number offset : Nat) : Location :=
  match h : chars.dropWhile (· != '\n') with
  | [] => ⟨number, String.ofList chars, min offset (byteCount chars)⟩
  | feed :: rest =>
    let line := chars.takeWhile (· != '\n') ++ [feed]
    if byteCount line ≤ offset then
      have : rest.length < chars.length := by
        have hle := (List.dropWhile_suffix (l := chars) (· != '\n')).length_le
        rw [h, List.length_cons] at hle
        omega
      within rest (number + 1) (offset - byteCount line)
    else
      ⟨number, String.ofList line, offset⟩
termination_by chars.length

end Location

/-- The location of byte `offset` in `source`. -/
def locate (source : String) (offset : Nat) : Location :=
  Location.within source.toList 1 offset

end LetScript
