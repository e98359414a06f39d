import LetScript.Proofs.Spelling

/-!
# A scanner that looks at one byte at a time

A lexer has all the bytes that are left. A scanner looks at a single one: it keeps the offset of
this byte in its source, the offset to read from next, and the byte itself, zero being kept where
there is none. It changes all three whenever it reads on.

What else it uses of the source it has to ask for: the byte at an index, the text between two
offsets, how far a run of letters or digits goes on. There may be no byte at the index, and a text
is only given where it starts and ends between two characters; code that is refused stops there. So
from where a scanner stands, code comes to what it asked for, one request after the other, and to a
value and the scanner afterwards, unless it was refused something.

The search for a run is a parameter. Nothing is assumed of it here, and code that is told of no run
takes a single byte for one.
-/

namespace LetScript

/-- The two sorts of characters that a token may be a run of. -/
inductive Run where
  | word
  | digits
deriving DecidableEq, Repr

namespace Run

/-- Whether a character may stand in a run. -/
def includes : Run → Char → Bool
  | word => isWordChar
  | digits => Char.isDigit

/-- Whether a byte is such a character. -/
def includesByte : Run → UInt8 → Bool
  | word => isWordByte
  | digits => isDigitByte

theorem includesByte_eq (run : Run) (byte : UInt8) :
    run.includesByte byte = run.includes (Char.ofUInt8 byte) := by
  cases run with
  | word => exact isWordByte_eq byte
  | digits => exact isDigitByte_eq byte

theorem lt_of_includesByte {run : Run} {byte : UInt8} (h : run.includesByte byte) :
    byte < 0x80 := by
  cases run with
  | word => exact lt_of_isWordByte h
  | digits => exact lt_of_isDigitByte h

theorem lt_of_includes {run : Run} {c : Char} (h : run.includes c) : c.toNat < 0x80 := by
  cases run with
  | word => exact lt_of_isWordChar h
  | digits => exact lt_of_isDigit h

end Run

/-- The text between two offsets of a source, if there is a character's end or start at both. -/
def Utf8.slice? (source : String) (start stop : Nat) : Option String :=
  if start ≤ stop ∧ String.Pos.Raw.IsValid source ⟨start⟩ ∧
      String.Pos.Raw.IsValid source ⟨stop⟩ then
    decode? ((encode source).extract start stop)
  else
    none

/-- What is asked of a source. -/
inductive Request where
  /-- The byte at an index. -/
  | byte (index : Nat)
  /-- The text between two offsets. -/
  | slice (start stop : Nat)
  /-- How many bytes of a run stand at an offset, with the answer that was given. -/
  | run (run : Run) (start : Nat) (found : Option Nat)
deriving DecidableEq, Repr

/-- A source with the byte that is looked at. -/
structure Scanner where
  source : String
  file : String
  /-- The offset of the byte that is looked at. -/
  position : Nat
  /-- The offset of the byte that is read next. -/
  readPosition : Nat
  /-- The byte that is looked at, or zero at the end. -/
  current : UInt8
deriving DecidableEq, Repr

namespace Scanner

/-- Stands before a source of which nothing has been read. -/
def ofString (source : String) (file : Option String) : Scanner :=
  ⟨source, file.getD Lexer.defaultFile, 0, 0, 0⟩

/-- The number of bytes in the source. -/
def size (s : Scanner) : Nat := s.source.utf8ByteSize

/-- Whether there is no byte to look at. -/
def atEnd (s : Scanner) : Bool := s.size ≤ s.position

/-- How often the scanner can read on before it stands at the end. -/
def left (s : Scanner) : Nat := (s.size - s.readPosition) + min 1 (s.size - s.position)

end Scanner

/-- Code that uses a scanner: what it asks for and, unless it is stopped, a value and the scanner
afterwards. -/
def Scan (α : Type) : Type := Scanner → List Request × Option (α × Scanner)

namespace Scan

variable {α β : Type}

protected def pure (value : α) : Scan α := fun s => ([], some (value, s))

/-- Goes on with what the first code gave, unless that was stopped. -/
protected def bind (first : Scan α) (next : α → Scan β) : Scan β := fun s =>
  match first s with
  | (asked, none) => (asked, none)
  | (asked, some (value, after)) =>
    let (more, result) := next value after
    (asked ++ more, result)

instance : Monad Scan where
  pure := Scan.pure
  bind := Scan.bind

/-- Stops. -/
def cutOff : Scan α := fun _ => ([], none)

/-- Looks at the scanner. -/
def scanner : Scan Scanner := fun s => ([], some (s, s))

/-- Puts another scanner in place of the one there is. -/
def become (after : Scanner) : Scan Unit := fun _ => ([], some ((), after))

def askByte (index : Nat) : Scan UInt8 := fun s =>
  ([.byte index], (Utf8.encode s.source)[index]?.map (·, s))

def askSlice (start stop : Nat) : Scan String := fun s =>
  ([.slice start stop], (Utf8.slice? s.source start stop).map (·, s))

/-- Asks how far a run goes on at the start of the text, which stands at an offset. -/
def askRun (find : Run → String → Option Nat) (run : Run) (start : Nat) (text : String) :
    Scan (Option Nat) := fun s =>
  ([.run run start (find run text)], some (find run text, s))

/-- Looks at the next byte. -/
def readByte : Scan Unit := do
  let s ← scanner
  if s.size ≤ s.readPosition then
    become { s with position := s.size, readPosition := s.size, current := 0 }
  else
    let byte ← askByte s.readPosition
    become { s with
      position := s.readPosition
      readPosition := s.readPosition + 1
      current := byte }

/-- The byte after the one that is looked at. -/
def peekByte : Scan UInt8 := do
  let s ← scanner
  if s.size ≤ s.readPosition then
    return 0
  else
    askByte s.readPosition

/-- Reads on for a number of bytes. -/
def advance : Nat → Scan Unit
  | 0 => return ()
  | count + 1 => do
    readByte
    advance count

/-- From anywhere but the end a scanner reads on only so often. -/
theorem left_lt_of_readByte {s after : Scanner} {asked : List Request} (hend : s.atEnd = false)
    (h : readByte s = (asked, some ((), after))) : after.left < s.left := by
  have hafter : (readByte s).2 = some ((), after) := congrArg Prod.snd h
  have hhere : s.position < s.size := Nat.not_le.mp (of_decide_eq_false hend)
  by_cases hsize : s.size ≤ s.readPosition
  · simp only [readByte, scanner, become, bind, Scan.bind, if_pos hsize] at hafter
    obtain rfl := (Prod.mk.inj (Option.some.inj hafter)).2
    simp only [Scanner.left, Scanner.size] at hhere ⊢
    omega
  · simp only [readByte, scanner, askByte, become, bind, Scan.bind, if_neg hsize] at hafter
    cases hbyte : (Utf8.encode s.source)[s.readPosition]? with
    | none => simp [hbyte] at hafter
    | some byte =>
      simp only [hbyte, Option.map_some] at hafter
      obtain rfl := (Prod.mk.inj (Option.some.inj hafter)).2
      simp only [Scanner.left, Scanner.size] at hhere hsize ⊢
      omega

/-- Reads on to a byte that is no separator, or to the end. -/
def skipSeparators (s : Scanner) : List Request × Option (Unit × Scanner) :=
  if h : s.atEnd = false ∧ isSeparator s.current then
    match hread : readByte s with
    | (asked, none) => (asked, none)
    | (asked, some ((), after)) =>
      have := left_lt_of_readByte h.1 hread
      let (more, result) := skipSeparators after
      (asked ++ more, result)
  else
    ([], some ((), s))
termination_by s.left

/-- A token from an offset up to the byte that is looked at. -/
def token (kind : Kind) (literal : String) (start : Nat) : Scan Token := do
  let s ← scanner
  return ⟨kind, literal, ⟨.atOffset start s.file, .atOffset s.position s.file⟩⟩

/-- Reads a token of a single byte, whose text is the character of this number. -/
def readSingle (kind : Kind) : Scan Token := do
  let s ← scanner
  readByte
  token kind (latinText [s.current]) s.position

/-- Reads a token that is one kind alone and another with `=` after it. -/
def readWithEquals (single double : Kind) : Scan Token := do
  if (← peekByte) = 0x3d then
    let start := (← scanner).position
    advance 2
    let text ← askSlice start (← scanner).position
    token double text start
  else
    readSingle single

section Find

variable (find : Run → String → Option Nat)

/-- Reads a run, and gives its text and the offset where it starts. -/
def readRun (run : Run) : Scan (Nat × String) := do
  let s ← scanner
  let text ← askSlice s.position s.size
  let found ← askRun find run s.position text
  advance (found.getD 1)
  let literal ← askSlice s.position (← scanner).position
  return (s.position, literal)

/-- Reads the next token, and the end of the input again and again. -/
def nextToken : Scan Token := do
  skipSeparators
  let s ← scanner
  if s.atEnd then
    token .eof "" s.position
  else if s.current = 0x3d then
    readWithEquals .assignment .equals
  else if s.current = 0x21 then
    readWithEquals .not .notEquals
  else if isWordByte s.current then
    let (start, word) ← readRun find .word
    token (.ofWord word) word start
  else if isDigitByte s.current then
    let (start, digits) ← readRun find .digits
    token .integer digits start
  else
    readSingle (.ofByte s.current)

/-- Reads a number of tokens, one after the other. -/
def nextTokens : Nat → Scan (List Token)
  | 0 => return []
  | count + 1 => do
    let first ← nextToken find
    let rest ← nextTokens count
    return first :: rest

/-- Reads tokens up to and including the end of the input, and is cut off where more than so many
would be read. -/
def allTokens : Nat → Scan (List Token)
  | 0 => cutOff
  | rounds + 1 => do
    let first ← nextToken find
    if first.kind = .eof then
      return [first]
    else
      let rest ← allTokens rounds
      return first :: rest

end Find

/-- Runs code from the first byte of a source. -/
def onSource (scan : Scan α) (source : String) (file : Option String) :
    List Request × Option (α × Scanner) :=
  (do readByte; scan : Scan α) (.ofString source file)

end Scan

end LetScript
