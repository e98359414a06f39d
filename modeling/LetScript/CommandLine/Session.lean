import LetScript.CommandLine.Report

/-!
# An interactive session

A session greets its user and then answers line after line until it is told to exit, a line is
not text, or the input ends. A line is answered on its own: by the listing of its tokens if it
asks for one, and by the report on it as a source otherwise. A report that breaks off breaks the
session off with it.

The input comes as bytes. A line feed ends a line and belongs to no line, and neither does a
carriage return directly before it; what follows the last line feed is a line unless it is empty.
-/

namespace LetScript.Session

/-- What invites the next line. -/
def prompt : String := ">> "

/-- The lines that open a session. -/
def banner (user : Option String) : String :=
  "Hello " ++ user.getD "there" ++ ", this is the Monkey programming language!\n" ++
    "Feel free to type in commands\n"

/-- What a line makes the session do. -/
inductive Response where
  | answer (text : String)
  | leave (text : String)
  | breakOff (text : String)
deriving DecidableEq, Repr

/-- Whether a line asks to exit, blanks around the word being ignored. -/
def isExit (line : String) : Bool := trimBlank line.toList = "exit".toList

/-- The source whose tokens a line asks for. -/
def listingRequest? (line : String) : Option String :=
  (":tokens ".toList.isPrefixOf? line.toList).map String.ofList

/-- The response to a line. -/
def respond (line : String) : Response :=
  if isExit line then
    .leave "Bye!\n"
  else
    match listingRequest? line with
    | some source => .answer (tokenListing source)
    | none =>
      let report := Report.ofSource line none
      if report.verdict = .brokenOff then .breakOff report.text else .answer report.text

/-- A line without a carriage return at its end. -/
def dropReturn (line : List UInt8) : List UInt8 :=
  if line.getLast? = some 0x0d then line.dropLast else line

/-- The lines of the input. -/
def lines (input : List UInt8) : List (List UInt8) :=
  match h : input.dropWhile (· != 0x0a) with
  | [] => if input = [] then [] else [input]
  | _ :: rest =>
    have : rest.length < input.length := by
      have hle := (List.dropWhile_suffix (l := input) (· != 0x0a)).length_le
      rw [h, List.length_cons] at hle
      omega
    dropReturn (input.takeWhile (· != 0x0a)) :: lines rest
termination_by input.length

/-- All that a session prints after the banner, given the lines of its input, and its exit code. -/
def dialogue : List (List UInt8) → String × UInt32
  | [] => (prompt, 0)
  | line :: rest =>
    match (Utf8.decode? line).map respond with
    | none => (prompt, 0)
    | some (.leave text) => (prompt ++ text, 0)
    | some (.breakOff text) => (prompt ++ text, Verdict.brokenOff.code)
    | some (.answer text) =>
      let (more, code) := dialogue rest
      (prompt ++ (text ++ more), code)

end LetScript.Session
