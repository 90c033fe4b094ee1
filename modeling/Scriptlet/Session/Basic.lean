import Scriptlet.Session.Analysis
import Scriptlet.Run.Evaluate

/-!
# Sessions

A `Session` runs sources one after another over one machine: names, objects and output of earlier sources stay.
`Session.run` runs a source and yields what was reported and how the run ended.  A source with a static error is not
executed.
-/

set_option autoImplicit false

namespace Scriptlet

/-- Which kinds of error a run had. -/
structure Status where
  hadStaticError : Bool
  hadRuntimeError : Bool
  deriving DecidableEq, Repr

/-- The exit code of a status. -/
def Status.exitCode (s : Status) : Nat :=
  if s.hadStaticError then 65 else if s.hadRuntimeError then 70 else 0

/-- How a run ended. -/
inductive Ending where
  | finished (status : Status)
  | fault (f : Fault)
  | exhausted
  deriving DecidableEq, Repr

/-- The outcome of a run. -/
structure Run where
  /-- The bytes that reached the sink. -/
  output : ByteArray
  /-- The diagnostics, in the order of their report. -/
  reports : List Diagnostic
  ending : Ending

/-- A machine and the next free node id. -/
structure Session where
  machine : Machine
  nextId : NodeId

namespace Session

/-- A session that has run nothing. -/
def initial (sink : Sink) (clock : Nat → Float) : Session := ⟨Machine.initial sink clock, 0⟩

/-- How a halted run is reported, and how it ended. -/
def ofHalt : Halt → List Diagnostic × Ending
  | .error e => ([.run e], .finished ⟨false, true⟩)
  | .fault f => ([], .fault f)
  | .exhausted => ([], .exhausted)

/-- Runs a source with the given number of steps. -/
def run (steps : Nat) (s : Session) (source : String) : Run × Session :=
  let found := analyse s.machine.table s.nextId source
  let start := s.machine.sink.written.size
  let machine := { s.machine with table := found.table }
  match found.program with
  | none => (⟨.empty, found.diagnostics, .finished ⟨true, false⟩⟩, ⟨machine, found.nextId⟩)
  | some program =>
      match interpret steps program machine with
      | .ok _ m => (⟨m.sink.since start, [], .finished ⟨false, false⟩⟩, ⟨m, found.nextId⟩)
      | .error halt m =>
          let (reports, ending) := ofHalt halt
          (⟨m.sink.since start, reports, ending⟩, ⟨m, found.nextId⟩)

/-- The outcomes of sources run one after another.  A run that did not finish is the last. -/
def runAll (steps : Nat) (s : Session) : List String → List Run
  | [] => []
  | source :: rest =>
      let (outcome, s') := s.run steps source
      match outcome.ending with
      | .finished _ => outcome :: s'.runAll steps rest
      | _ => [outcome]

end Session

end Scriptlet
