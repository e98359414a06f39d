import LetScript.CommandLine.Session

/-!
# Running from a command line

Without an argument the program holds a session on its input. With one, it reports on the file of
that name and fails unless the report is clean; the report calls the file by the part of its path
after the last slash. More arguments are refused with a line on how to call the program. What the
runtime says on errors about a run that breaks off is left out.
-/

namespace LetScript

/-- What a run leaves behind: its exit code, and what it printed for its user and on errors. -/
structure Outcome where
  code : UInt32
  out : String
  err : String
deriving DecidableEq, Repr

namespace CommandLine

/-- The part of a path after the last slash. -/
def fileName (path : String) : String :=
  String.ofList (path.toList.reverse.takeWhile (· != '/')).reverse

/-- The text of a file, or why there is none. -/
def fileText (content : Except String (List UInt8)) : Except String String :=
  match content with
  | .error reason => .error reason
  | .ok bytes =>
    match Utf8.decode? bytes with
    | none => .error "stream did not contain valid UTF-8"
    | some text => .ok text

/-- The outcome for a file, given its path and what came of reading it. -/
def runFile (path : String) (content : Except String (List UInt8)) : Outcome :=
  match fileText content with
  | .error reason => ⟨1, "", "Failed to read " ++ path ++ ": " ++ reason ++ "\n"⟩
  | .ok source =>
    let report := Report.ofSource source (some (fileName path))
    ⟨report.verdict.code, report.text, ""⟩

/-- The outcome of a session. -/
def runSession (user : Option String) (input : List UInt8) : Outcome :=
  let (text, code) := Session.dialogue (Session.lines input)
  ⟨code, Session.banner user ++ text, ""⟩

/-- The outcome for arguments that cannot be served by the program called `name`. -/
def refuse (name : String) : Outcome :=
  ⟨1, "", "Usage: " ++ name ++ " [FILE]\n"⟩

/-- The outcome of a run: the program's name and arguments, its user, its input, and the files
within reach. -/
def run (name : String) (arguments : List String) (user : Option String) (input : List UInt8)
    (read : String → Except String (List UInt8)) : Outcome :=
  match arguments with
  | [] => runSession user input
  | [path] => runFile path (read path)
  | _ => refuse name

end CommandLine

end LetScript
