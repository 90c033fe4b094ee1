import Scriptlet.Session.Diagnostic
import Scriptlet.Tree.Parse

/-!
# Analysis of a source

`analyse` scans, parses and resolves a source.  It yields a program only if no stage found an error.  A source with
lexical errors is still parsed, but not resolved.
-/

set_option autoImplicit false

namespace Scriptlet

/-- The outcome of the analysis of a source. -/
structure Analysis where
  /-- The errors found, in the order of their report. -/
  diagnostics : List Diagnostic
  /-- The program, if there was no error. -/
  program : Option Program
  /-- The next free node id. -/
  nextId : NodeId
  /-- The given table and the distances of this source. -/
  table : DistanceTable

/-- Analyses a source.  Its node ids start at `firstId` and its distances are added to a table. -/
def analyse (table : DistanceTable) (firstId : NodeId) (source : String) : Analysis :=
  let lexical := (lexErrors source).map .lexical
  let parsed := parse firstId (tokens source)
  match parsed.program with
  | .error errors => ⟨lexical ++ errors.map .parse, none, parsed.nextId, table⟩
  | .ok program =>
      if lexical.isEmpty then
        let resolved := resolve table program
        if resolved.errors.isEmpty then ⟨[], some program, parsed.nextId, resolved.table⟩
        else ⟨resolved.errors.map .resolve, none, parsed.nextId, resolved.table⟩
      else ⟨lexical, none, parsed.nextId, table⟩

end Scriptlet
