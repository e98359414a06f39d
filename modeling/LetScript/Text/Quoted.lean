/-!
# Quoted text

A text is quoted by double quotes around it, with a backslash before each quote and backslash
inside. Tab, line feed, carriage return and NUL have an escape of their own, and every other
character that is not printable is given by its code point in hexadecimal: `\u{ad}`.

Which characters are printable is fixed here for the first 256 code points, from which the texts
of all tokens are made: the two blocks of control characters, the no-break space and the soft
hyphen are not.
-/

namespace LetScript.Quoted

/-- Whether a character stands for itself when quoted: no control character, no-break space or
soft hyphen. -/
def isPrintable (c : Char) : Bool :=
  0x20 ≤ c.toNat && !(0x7f ≤ c.toNat && c.toNat ≤ 0xa0) && c.toNat != 0xad

/-- What is written inside the quotes for one character. -/
def escape (c : Char) : List Char :=
  if c = '"' then ['\\', '"']
  else if c = '\\' then ['\\', '\\']
  else if c = '\t' then ['\\', 't']
  else if c = '\n' then ['\\', 'n']
  else if c = '\r' then ['\\', 'r']
  else if c.toNat = 0 then ['\\', '0']
  else if isPrintable c then [c]
  else ['\\', 'u', '\x7b'] ++ Nat.toDigits 16 c.toNat ++ ['\x7d']

/-- The text in quotes. -/
def encode (text : String) : String :=
  String.ofList ('"' :: text.toList.flatMap escape ++ ['"'])

end LetScript.Quoted
