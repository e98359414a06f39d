import LetScript.Diagnostic.Excerpt
import LetScript.Program.Attempt
import LetScript.Tree.Printer

/-!
# The report on a source

Reading a source is reported as its program, printed on a line of its own, if there is nothing
to object to. Otherwise the program is withheld, and the report shows every diagnostic in the
source instead. A diagnostic that cannot be drawn breaks the run off after those before it.
-/

namespace LetScript

/-- What a report comes to. -/
inductive Verdict where
  | clean
  | refused
  | brokenOff
deriving DecidableEq, Repr

/-- The exit code for a file that is reported on. -/
def Verdict.code : Verdict → UInt32
  | clean => 0
  | refused => 1
  | brokenOff => 101

/-- What is printed about a source, and what it comes to. -/
structure Report where
  verdict : Verdict
  text : String
deriving DecidableEq, Repr

namespace Report

/-- The report on `source`. -/
def ofSource (source : String) (file : Option String) : Report :=
  match parse source file with
  | (program, []) => ⟨.clean, program.text ++ "\n"⟩
  | (_, diagnostics) =>
    let (text, complete) := Diagnostic.drawAll source diagnostics
    ⟨if complete then .refused else .brokenOff, "parser errors:\n" ++ text⟩

end Report

/-- The listing of a source's tokens, one a line. -/
def tokenListing (source : String) : String :=
  String.join ((tokenize source none).map (·.summary ++ "\n"))

end LetScript
