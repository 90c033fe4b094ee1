import Scriptlet.CommandLine
import Std.Time

/-!
# The program

Reads the command and its input, and writes the transcript of `CommandLine`.
-/

set_option autoImplicit false

namespace Scriptlet.CommandLine

/-- More steps than any run can take. -/
def endless : Nat := Nat.pow 2 62

/-- A clock that starts now and advances by a microsecond with each reading. -/
def clockFromNow : IO (Nat → Float) := do
  let now ← Std.Time.Timestamp.now
  let micros := now.toNanosecondsSinceUnixEpoch.toInt.toNat / 1000
  return fun k => Number.nearest (micros + k) 1000000

/-- Writes a transcript. -/
def Transcript.emit (t : Transcript) : IO UInt32 := do
  IO.print t.out
  (← IO.getStdout).flush
  IO.eprint t.err
  return UInt32.ofNat t.exit

/-- Reads a file. -/
def readFile (name : String) : IO File := do
  try
    return .content (← IO.FS.readBinFile name).toList
  catch e =>
    match e with
    | .noFileOrDirectory .. => return .missing
    | .inappropriateType .. => return .directory
    | e => throw e

/-- Reads the bytes of a line, its newline included; there are none at the end of the input. -/
def readLine (input : IO.FS.Stream) : IO (List UInt8) := do
  let mut line : Array UInt8 := #[]
  repeat
    match (← input.read 1).toList with
    | [] => break
    | byte :: _ =>
        line := line.push byte
        if byte = 0x0A then break
  return line.toList

/-- Runs the lines of standard input as they come. -/
def interact (clock : Nat → Float) : IO UInt32 := do
  let input ← IO.getStdin
  let mut session := Session.initial .unlimited clock
  repeat
    IO.print promptMark
    (← IO.getStdout).flush
    match ← readLine input with
    | [] =>
        IO.println ""
        return 0
    | line =>
        let (written, next) := promptLine endless session line
        let code ← written.emit
        match next with
        | some after => session := after
        | none => return code
  return 0

/-- How the program is called. -/
def usage : String := "usage: tokenize [--json] FILE | parse FILE | run [FILE]\n"

end Scriptlet.CommandLine

open Scriptlet.CommandLine in
/-- The program. -/
def main (args : List String) : IO UInt32 := do
  match args with
  | ["tokenize", name] => (withText name (← readFile name) (tokenize false)).emit
  | ["tokenize", "--json", name] | ["tokenize", name, "--json"] =>
      (withText name (← readFile name) (tokenize true)).emit
  | ["parse", name] => (withText name (← readFile name) parse).emit
  | ["run", name] => (withText name (← readFile name) (run endless (← clockFromNow))).emit
  | ["run"] => interact (← clockFromNow)
  | _ => (Transcript.mk "" usage 2).emit
