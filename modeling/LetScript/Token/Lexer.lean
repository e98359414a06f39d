import LetScript.Text.Utf8
import LetScript.Token.Basic

/-!
# Reading tokens from bytes

A lexer stands somewhere in a source and holds the bytes that are left. Asked for a token, it
skips spaces, tabs, line feeds and carriage returns and takes the longest token that starts
there: a run of letters and underscores, a run of digits, an operator of one or two bytes, or a
single byte that starts no token.

A token's text is read off its bytes one character a byte. All tokens but illegal ones are
ASCII, so the text is the source's own; a character outside ASCII gives one illegal token for
each of its bytes.

Every token takes at least one byte, hence the token list of a source is found by recursion on
what is left.
-/

namespace LetScript

/-- The text of `bytes`, one character of the first 256 for each. -/
def latinText (bytes : List UInt8) : String :=
  String.ofList (bytes.map Char.ofUInt8)

/-- The four bytes that separate tokens: space, tab, line feed and carriage return. -/
def isSeparator (byte : UInt8) : Bool :=
  byte = 0x20 || byte = 0x09 || byte = 0x0a || byte = 0x0d

/-- An ASCII letter or the underscore. -/
def isWordByte (byte : UInt8) : Bool :=
  (0x41 ≤ byte && byte ≤ 0x5a) || (0x61 ≤ byte && byte ≤ 0x7a) || byte = 0x5f

/-- An ASCII digit. -/
def isDigitByte (byte : UInt8) : Bool :=
  0x30 ≤ byte && byte ≤ 0x39

/-- The kind of a token of one byte that is neither word nor digit. -/
def Kind.ofByte (byte : UInt8) : Kind :=
  if byte = 0x3d then .assignment
  else if byte = 0x21 then .not
  else if byte = 0x2b then .plus
  else if byte = 0x2d then .dash
  else if byte = 0x2a then .star
  else if byte = 0x2f then .slash
  else if byte = 0x3c then .less
  else if byte = 0x3e then .greater
  else if byte = 0x2c then .comma
  else if byte = 0x3b then .semicolon
  else if byte = 0x28 then .openParen
  else if byte = 0x29 then .closeParen
  else if byte = 0x7b then .openCurly
  else if byte = 0x7d then .closeCurly
  else .illegal

/-- The kind and the bytes of the longest token at the front of `byte :: rest`. -/
def longestToken (byte : UInt8) (rest : List UInt8) : Kind × List UInt8 :=
  if isWordByte byte then
    let word := byte :: rest.takeWhile isWordByte
    (.ofWord (latinText word), word)
  else if isDigitByte byte then
    (.integer, byte :: rest.takeWhile isDigitByte)
  else if byte = 0x3d ∧ rest.head? = some 0x3d then
    (.equals, [0x3d, 0x3d])
  else if byte = 0x21 ∧ rest.head? = some 0x3d then
    (.notEquals, [0x21, 0x3d])
  else
    (.ofByte byte, [byte])

theorem longestToken_ne_nil (byte : UInt8) (rest : List UInt8) :
    (longestToken byte rest).2 ≠ [] := by
  unfold longestToken
  repeat' split
  all_goals simp

/-- A place in the source called `file`: the offset, and the bytes from there on. -/
structure Lexer where
  file : String
  offset : Nat
  rest : List UInt8
deriving DecidableEq

namespace Lexer

/-- The name of a source that was given none. -/
def defaultFile : String := "shell"

/-- The start of `source`. -/
def ofString (source : String) (file : Option String) : Lexer :=
  ⟨file.getD defaultFile, 0, Utf8.encode source⟩

/-- Whether all bytes are used up. -/
def atEnd (lexer : Lexer) : Bool := lexer.rest.isEmpty

/-- The place `count` bytes further on. -/
def skip (lexer : Lexer) (count : Nat) : Lexer :=
  { lexer with offset := lexer.offset + count, rest := lexer.rest.drop count }

/-- The place of the next byte that is no separator. -/
def skipSeparators (lexer : Lexer) : Lexer :=
  lexer.skip (lexer.rest.takeWhile isSeparator).length

/-- The place after the last byte. -/
def toEnd (lexer : Lexer) : Lexer := lexer.skip lexer.rest.length

/-- The position after the last byte. -/
def finish (lexer : Lexer) : Position := .atOffset lexer.toEnd.offset lexer.file

/-- The next token and the place after it, while there is one. -/
def next? (lexer : Lexer) : Option (Token × Lexer) :=
  let here := lexer.skipSeparators
  match here.rest with
  | [] => none
  | byte :: rest =>
    let (kind, bytes) := longestToken byte rest
    some (⟨kind, latinText bytes, .ofLength here.offset bytes.length here.file⟩,
      here.skip bytes.length)

/-- The next token and the place after it, the end of input being repeated for ever. -/
def next (lexer : Lexer) : Token × Lexer :=
  lexer.next?.getD (.endOfInput lexer.finish, lexer.toEnd)

theorem length_rest_skip (lexer : Lexer) (count : Nat) :
    (lexer.skip count).rest.length = lexer.rest.length - count := by
  simp [skip]

/-- A token uses up at least one byte. -/
theorem length_rest_lt_of_next? {lexer after : Lexer} {token : Token}
    (h : lexer.next? = some (token, after)) : after.rest.length < lexer.rest.length := by
  unfold next? at h
  dsimp only at h
  split at h
  · contradiction
  · rename_i byte rest hrest
    obtain ⟨-, rfl⟩ := Prod.mk.inj (Option.some.inj h)
    have hpos : 0 < (longestToken byte rest).2.length :=
      List.length_pos_iff.mpr (longestToken_ne_nil byte rest)
    have hlen := congrArg List.length hrest
    simp only [skipSeparators, length_rest_skip, List.length_cons] at hlen ⊢
    omega

/-- The tokens from here on, without the end of input. -/
def content (lexer : Lexer) : List Token :=
  match h : lexer.next? with
  | none => []
  | some (token, after) =>
    have := length_rest_lt_of_next? h
    token :: after.content
termination_by lexer.rest.length

/-- The tokens from here on, the end of input last. -/
def tokens (lexer : Lexer) : List Token :=
  lexer.content ++ [.endOfInput lexer.finish]

theorem content_of_next?_eq_none {lexer : Lexer} (h : lexer.next? = none) :
    lexer.content = [] := by
  unfold content
  split <;> simp_all

theorem content_of_next? {lexer after : Lexer} {token : Token}
    (h : lexer.next? = some (token, after)) : lexer.content = token :: after.content := by
  rw [content]
  split <;> simp_all

/-- There are at most as many tokens as bytes. -/
theorem length_content_le (lexer : Lexer) : lexer.content.length ≤ lexer.rest.length := by
  fun_induction content lexer with
  | case1 => exact Nat.zero_le _
  | case2 _ _ _ h _ ih =>
    have := length_rest_lt_of_next? h
    simp only [List.length_cons]
    omega

end Lexer

/-- Every token of `source`, the end of input last. -/
def tokenize (source : String) (file : Option String) : List Token :=
  (Lexer.ofString source file).tokens

end LetScript
