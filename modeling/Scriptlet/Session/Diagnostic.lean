import Scriptlet.Token.Scan
import Scriptlet.Tree.Mistake
import Scriptlet.Scope.Resolve
import Scriptlet.Run.Error

/-!
# Diagnostics

A `Diagnostic` is an error of any stage.  `Diagnostic.text` is its display form.  Static diagnostics are reported
with a line, a context and a message, run-time ones with a line and a message; `Diagnostic.reportText` is the report
as it is written for a reader.
-/

set_option autoImplicit false

namespace Scriptlet

/-- An error of any stage. -/
inductive Diagnostic where
  | lexical (e : LexError)
  | parse (e : ParseError)
  | resolve (e : ResolveError)
  | run (e : RunError)
  deriving DecidableEq, Repr

namespace Diagnostic

/-- Whether a diagnostic comes from a running script. -/
def isRuntime : Diagnostic → Bool
  | run _ => true
  | _ => false

/-- The line of a diagnostic; a failure of the sink has none. -/
def line? : Diagnostic → Option Nat
  | lexical e => some e.line
  | parse e => some e.line
  | resolve e => some e.line
  | run (.script line _) => some line
  | run (.sink _) => none

/-- The place a static diagnostic names, apart from its line. -/
def context : Diagnostic → String
  | lexical _ => ""
  | parse e => e.location.text
  | resolve e => (Location.at e.lexeme).text
  | run _ => ""

/-- What is wrong. -/
def message : Diagnostic → String
  | lexical e => e.fault.message
  | parse e => e.mistake.message
  | resolve e => e.fault.message
  | run (.script _ fault) => fault.message
  | run (.sink e) => e.message

/-- A line number as it stands in diagnostics. -/
def lineText (line : Nat) : String := "[line " ++ line.repr ++ "]"

/-- The display form. -/
def text (d : Diagnostic) : String :=
  match d with
  | run (.script line fault) => fault.message ++ "\n" ++ lineText line
  | run (.sink e) => e.message
  | _ => lineText (d.line?.getD 0) ++ " Error" ++ d.context ++ ": " ++ d.message

/-- The report for a reader; a failure of the sink is reported at line 0. -/
def reportText (d : Diagnostic) : String :=
  match d with
  | run _ => d.message ++ "\n" ++ lineText (d.line?.getD 0)
  | _ => d.text

end Diagnostic

end Scriptlet
