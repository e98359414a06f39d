import LetScript.CommandLine.Invocation

/-!
# The program

The outermost layer: it reads lines and files, prints what the pure definitions answer, and
passes the exit code on. A session is held line by line, so that every answer is printed before
the next line is read.
-/

namespace LetScript.CommandLine

/-- Reads on to the next line feed, or to the end of input. -/
partial def readLine (stdin : IO.FS.Stream) (line : ByteArray) : IO ByteArray := do
  let byte ← stdin.read 1
  if byte.data = #[] then return line
  else if byte.data = #[0x0a] then return line ++ byte
  else readLine stdin (line ++ byte)

/-- Answers one line of input after the other, and gives the exit code. -/
partial def answerLines (stdin stdout : IO.FS.Stream) : IO UInt32 := do
  stdout.putStr Session.prompt
  stdout.flush
  let line ← try readLine stdin .empty catch _ => return 0
  match Session.lines line.data.toList with
  | [] => return 0
  | bytes :: _ =>
    match (Utf8.decode? bytes).map Session.respond with
    | none => return 0
    | some (.leave text) =>
      stdout.putStr text
      return 0
    | some (.breakOff text) =>
      stdout.putStr text
      return Verdict.brokenOff.code
    | some (.answer text) =>
      stdout.putStr text
      answerLines stdin stdout

/-- The system's text for one of its error codes, which may come with its sign turned. -/
def systemText (code : UInt32) (details : String) : String :=
  let number := if code < 0x80000000 then code else 0 - code
  let text :=
    match number with
    | 2 => "No such file or directory"
    | 13 => "Permission denied"
    | 20 => "Not a directory"
    | 21 => "Is a directory"
    | 36 => "File name too long"
    | 40 => "Too many levels of symbolic links"
    | _ => details
  text ++ " (os error " ++ toString number ++ ")"

/-- Why the system did not give a file. -/
def failureText : IO.Error → String
  | .noFileOrDirectory _ code details => systemText code details
  | .permissionDenied _ code details => systemText code details
  | .inappropriateType _ code details => systemText code details
  | .invalidArgument _ code details => systemText code details
  | .resourceExhausted _ code details => systemText code details
  | .otherError code details => systemText code details
  | error => toString error

/-- The bytes of a file, or why there are none. -/
def readFile (path : String) : IO (Except String (List UInt8)) := do
  try
    let bytes ← IO.FS.readBinFile path
    return .ok bytes.data.toList
  catch error =>
    return .error (failureText error)

/-- Prints an outcome and gives its exit code. -/
def finish (outcome : Outcome) : IO UInt32 := do
  (← IO.getStdout).putStr outcome.out
  (← IO.getStderr).putStr outcome.err
  return outcome.code

end LetScript.CommandLine

open LetScript LetScript.CommandLine

/-- Runs the program. -/
def main (arguments : List String) : IO UInt32 := do
  match arguments with
  | [] =>
    let stdout ← IO.getStdout
    stdout.putStr (Session.banner (← IO.getEnv "USER"))
    answerLines (← IO.getStdin) stdout
  | [path] => finish (runFile path (← readFile path))
  | _ => finish (refuse (toString (← IO.appPath)))
