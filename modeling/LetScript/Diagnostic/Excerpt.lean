import LetScript.Diagnostic.Basic
import LetScript.Source.Line
import LetScript.Text.Blank

/-!
# Diagnostics shown in their source

A diagnostic is shown in five lines: its message and tip, the name of the source, a bar, the line
of the source it points into, and a caret under the byte it points at.

The line is shown without the spaces and tabs it starts with and without the blanks it ends with.
The caret follows one dash for each byte between the first one shown and the one pointed at; it
stands first in the line if that byte is among those taken away. Filling up with dashes has its
limit: where the line of the caret would be filled further, the diagnostic cannot be drawn.
-/

namespace LetScript

namespace Diagnostic

/-- The message, followed by the tip in parentheses. -/
def headline (diagnostic : Diagnostic) : String :=
  match diagnostic.cause.tip? with
  | none => "Error: " ++ diagnostic.message
  | some tip => "Error: " ++ diagnostic.message ++ " (" ++ tip ++ ")"

/-- Whether a character is taken away from the start of an excerpt. -/
def isIndent (c : Char) : Bool := c = ' ' || c = '\t'

/-- A bar, far enough to the right for the numbers of `width` digits above and below it. -/
def bar (width : Nat) : String := "".pushn ' ' (width + 1) ++ "|"

/-- The number of dashes before the caret. -/
def dashes (diagnostic : Diagnostic) (source : String) : Nat :=
  let location := locate source diagnostic.position.offset
  location.offset - (location.text.toList.takeWhile isIndent).length

/-- The five lines that show the diagnostic in its source. -/
def excerpt (diagnostic : Diagnostic) (source : String) : List String :=
  let location := locate source diagnostic.position.offset
  let number := toString location.number
  [diagnostic.headline,
    "-> " ++ diagnostic.position.file,
    bar number.length,
    number ++ " | " ++ String.ofList (trimBlankEnd (location.text.toList.dropWhile isIndent)),
    bar number.length ++ " " ++ "".pushn '-' (diagnostic.dashes source) ++ "^"]

/-- The excerpt as one text, each line ended by a line feed. -/
def render (diagnostic : Diagnostic) (source : String) : String :=
  String.join ((diagnostic.excerpt source).map (· ++ "\n"))

/-- The largest width that a text can be filled up to. -/
def maxWidth : Nat := 65535

/-- The excerpt as one text, if the dashes and the caret after them are not too wide. -/
def draw? (diagnostic : Diagnostic) (source : String) : Option String :=
  if diagnostic.dashes source + 1 ≤ maxWidth then some (diagnostic.render source) else none

/-- The excerpts of diagnostics one after the other, up to the first that cannot be drawn, and
whether all of them could be. -/
def drawAll (source : String) : List Diagnostic → String × Bool
  | [] => ("", true)
  | diagnostic :: rest =>
    match diagnostic.draw? source with
    | none => ("", false)
    | some text =>
      let (more, complete) := drawAll source rest
      (text ++ more, complete)

end Diagnostic

end LetScript
