import Scriptlet.Session.Basic
import Scriptlet.Text.Utf8
import Scriptlet.Token.Json
import Scriptlet.Tree.Print

/-!
# The command line

What each command does with its input, as a `Transcript` of what it writes and how it exits:

* `tokenize` lists the tokens of a file, as text or in JSON;
* `parse` prints the program of a file;
* `run` runs a file, or the lines of standard input one after another in one session.

Exit codes: 65 for static errors, 70 for an error of the running script, 1 for input that cannot be read.
-/

set_option autoImplicit false

namespace Scriptlet.CommandLine

/-- What a command writes and how it exits. -/
structure Transcript where
  out : String
  err : String
  exit : Nat
  deriving DecidableEq, Repr

/-- A file to be read. -/
inductive File where
  | missing
  | directory
  | content (bytes : List UInt8)

/-- The lines of several diagnostics. -/
def unlines (lines : List String) : String := String.join (lines.map (· ++ "\n"))

/-- A failure that is no error of the script. -/
def failure (text : String) : Transcript := ⟨"", "Error: " ++ text ++ "\n", 1⟩

/-- A failure and what caused it. -/
def failureBy (text cause : String) : Transcript := failure (text ++ "\n\nCaused by:\n    " ++ cause)

/-- A file name as it stands in messages. -/
def quoted (name : String) : String := "\"" ++ name ++ "\""

/-- Uses the text of a file, or fails because it cannot be read. -/
def withText (name : String) (file : File) (use : String → Transcript) : Transcript :=
  match file with
  | .missing => failureBy ("Failed to open file " ++ quoted name) "No such file or directory (os error 2)"
  | .directory => failureBy ("Failed to read file " ++ quoted name) "Is a directory (os error 21)"
  | .content bytes =>
      match Utf8.decode bytes with
      | .ok text => use text
      | .error e => failure e.message

/-! ## Commands on a file -/

/-- Lists the tokens of a source. -/
def tokenize (json : Bool) (source : String) : Transcript :=
  let errors := lexErrors source
  let listing :=
    if json then Json.tokenListing (tokens source) ++ "\n"
    else unlines ((tokens source).map Token.display)
  ⟨listing, unlines (errors.map fun e => (Diagnostic.lexical e).text), if errors.isEmpty then 0 else 65⟩

/-- Prints the program of a source. -/
def parse (source : String) : Transcript :=
  let found := analyse .empty 0 source
  let err := unlines (found.diagnostics.map Diagnostic.text)
  match found.program with
  | some program => ⟨Program.text program ++ "\n", err, 0⟩
  | none => ⟨"", err, 65⟩

/-- What is written about the end of a run. -/
def endingText : Ending → String
  | .finished _ => ""
  | .fault f => f.message ++ "\nError: Interpreter thread panicked\n"
  | .exhausted => "Error: Out of steps\n"

/-- The exit code after a run. -/
def endingExit : Ending → Nat
  | .finished status => status.exitCode
  | _ => 1

/-- The transcript of a run. -/
def ofRun (outcome : Run) : Transcript :=
  ⟨Utf8.decodeCut outcome.output,
    unlines (outcome.reports.map Diagnostic.reportText) ++ endingText outcome.ending,
    endingExit outcome.ending⟩

/-- Runs a source. -/
def run (steps : Nat) (clock : Nat → Float) (source : String) : Transcript :=
  ofRun ((Session.initial .unlimited clock).run steps source).1

/-! ## The prompt -/

/-- What stands before each line of the prompt. -/
def promptMark : String := "> "

/-- The failure to read a line. -/
def unreadableLine : Transcript :=
  failureBy "Failed to read from stdin" "stream did not contain valid UTF-8"

/-- Runs one line of the prompt: what is written, and the session after it unless the prompt ends. -/
def promptLine (steps : Nat) (session : Session) (line : List UInt8) : Transcript × Option Session :=
  match Utf8.decode line with
  | .error _ => (unreadableLine, none)
  | .ok source =>
      let (outcome, session) := session.run steps source
      match outcome.ending with
      | .finished _ => (ofRun outcome, some session)
      | _ => (ofRun outcome, none)

/-- Two transcripts one after the other. -/
def Transcript.andThen (first second : Transcript) : Transcript :=
  ⟨first.out ++ second.out, first.err ++ second.err, second.exit⟩

/-- Runs the remaining lines of the prompt. -/
def promptLines (steps : Nat) (session : Session) : List (List UInt8) → Transcript
  | [] => ⟨promptMark ++ "\n", "", 0⟩
  | line :: rest =>
      let mark : Transcript := ⟨promptMark, "", 0⟩
      match promptLine steps session line with
      | (written, some session) => (mark.andThen written).andThen (promptLines steps session rest)
      | (written, none) => mark.andThen written

/-- Runs the lines of an input one after another. -/
def prompt (steps : Nat) (clock : Nat → Float) (input : List UInt8) : Transcript :=
  promptLines steps (Session.initial .unlimited clock) (Utf8.lines input)

end Scriptlet.CommandLine
