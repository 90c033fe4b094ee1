import Mathlib
import Scriptlet.Proofs.Run.Regime
import Scriptlet.Proofs.Session.Invisible
import Scriptlet.Proofs.Session.Reports

/-!
# How runs finish

A run that finishes is refused, fails or succeeds, and its reports, its status and what it does to the session go
together.

* `Verdict` — the three ways, each with its status and its exit code.
* `Session.Finishes s steps source v` — the run of a source has what belongs to a verdict.

Principal results: `interpret_flushes` — a program that ends by itself has flushed the sink once, at its end;
`Session.run_trichotomy`.
-/

set_option autoImplicit false

namespace Scriptlet

/-! ## Flushing -/

/-- Nothing is flushed while a script runs. -/
theorem unflushed_lawful : (Regime.watching fun m m' => m'.sink.flushes = m.sink.flushes).Lawful :=
  Regime.watching_lawful (fun _ => rfl) (fun h h' => h'.trans h) (fun _ _ => rfl) (fun _ _ => rfl) (fun _ => rfl)
    fun _ _ _ => rfl

/-- The sink has been flushed once more in the end, unless the run faults or its steps are used up. -/
def Machine.FlushesIn (m : Machine) : EStateM.Result Halt Machine Unit → Prop
  | .ok _ m' => m'.sink.flushes = m.sink.flushes + 1
  | .error (.error _) m' => m'.sink.flushes = m.sink.flushes + 1
  | .error _ m' => m'.sink.flushes = m.sink.flushes

theorem Machine.finish_flushes {m m' : Machine} (h : m'.sink.flushes = m.sink.flushes)
    (result : Except RunError Unit) : m.FlushesIn (m'.finish result) := by
  unfold Machine.finish
  simp only
  split
  · exact congrArg (· + 1) h
  · exact congrArg (· + 1) h

/-- **A program that ends by itself has flushed the sink once, at its end.** -/
theorem interpret_flushes (steps : Nat) (p : Program) (m : Machine) : m.FlushesIn (interpret steps p m) := by
  have htop := unflushed_lawful.top steps p (m := m) trivial trivial
  unfold Regime.Keeps at htop
  unfold interpret
  cases hr : executeTop steps p m with
  | ok _ m' =>
      rw [hr] at htop
      exact Machine.finish_flushes htop.1.step _
  | error halt m' =>
      rw [hr] at htop
      cases halt with
      | error e => exact Machine.finish_flushes htop.step _
      | fault f => exact htop.step
      | exhausted => exact htop.step

/-! ## Verdicts -/

/-- The three ways in which a run can finish. -/
inductive Verdict where
  | refused
  | failed
  | succeeded
  deriving DecidableEq, Repr

namespace Verdict

/-- Which kinds of error belong to a verdict. -/
def status : Verdict → Status
  | refused => ⟨true, false⟩
  | failed => ⟨false, true⟩
  | succeeded => ⟨false, false⟩

/-- The exit code that belongs to a verdict. -/
def exitCode : Verdict → Nat
  | refused => 65
  | failed => 70
  | succeeded => 0

theorem exitCode_status (v : Verdict) : v.status.exitCode = v.exitCode := by
  cases v <;> rfl

theorem status_injective {v v' : Verdict} (h : v.status = v'.status) : v = v' := by
  revert h
  cases v <;> cases v' <;> decide

end Verdict

namespace Session

/-- The session with another sink. -/
def withSink (s : Session) (sink : Sink) : Session := { s with machine := { s.machine with sink := sink } }

/-- The static errors of a source are all that its run reports, and the run leaves the sink and the heap alone. -/
structure Refused (s : Session) (steps : Nat) (source : String) : Prop where
  reported : (s.run steps source).1.reports ≠ []
  static : ∀ d ∈ (s.run steps source).1.reports, d.isRuntime = false
  output : (s.run steps source).1.output = .empty
  sink : (s.run steps source).2.machine.sink = s.machine.sink
  heap : (s.run steps source).2.machine.heap = s.machine.heap

/-- The program of a source ends with the given result and has flushed the sink by then; the given reports are all that
follows. -/
structure Leaves (s : Session) (steps : Nat) (source : String) (result : EStateM.Result Halt Machine Unit)
    (reports : List Diagnostic) : Prop where
  program : ∃ p, (analyse s.machine.table s.nextId source).program = some p ∧
    interpret steps p (s.withTable (analyse s.machine.table s.nextId source).table) = result
  flushes : (resultMachine result).sink.flushes = s.machine.sink.flushes + 1
  reports : (s.run steps source).1.reports = reports
  machine : (s.run steps source).2.machine = resultMachine result

/-- What a verdict says about a run apart from its status: a program that fails reports the error it ends with and
nothing else, and one that succeeds reports nothing. -/
def Finishes (s : Session) (steps : Nat) (source : String) : Verdict → Prop
  | .refused => s.Refused steps source
  | .failed => ∃ e m, s.Leaves steps source (.error (.error e) m) [.run e]
  | .succeeded => ∃ m, s.Leaves steps source (.ok () m) []

variable {s : Session} {steps : Nat} {source : String}

theorem refused_of_none (h : (analyse s.machine.table s.nextId source).program = none) :
    s.Refused steps source := by
  have hrun := run_of_none steps h
  constructor
  · rw [hrun]
    exact diagnostics_ne_nil h
  · rw [hrun]
    exact isRuntime_of_analyse
  · rw [hrun]
  · rw [hrun]
    rfl
  · rw [hrun]
    rfl

/-- A run that finishes does so in one of the three ways. -/
theorem exists_finishes {status : Status} (hend : (s.run steps source).1.ending = .finished status) :
    ∃ v : Verdict, s.Finishes steps source v ∧ status = v.status := by
  cases hfound : (analyse s.machine.table s.nextId source).program with
  | none =>
      rw [run_of_none steps hfound] at hend
      cases hend
      exact ⟨.refused, refused_of_none hfound, rfl⟩
  | some p =>
      have hrun := run_of_some steps hfound
      have hflushes := interpret_flushes steps p (s.withTable (analyse s.machine.table s.nextId source).table)
      rw [hrun] at hend
      cases hresult : interpret steps p (s.withTable (analyse s.machine.table s.nextId source).table) with
      | ok _ m =>
          rw [hresult] at hflushes
          simp only [hresult] at hend hrun
          cases hend
          exact ⟨.succeeded, ⟨m, ⟨p, hfound, hresult⟩, hflushes, by rw [hrun]; rfl, by rw [hrun]⟩, rfl⟩
      | error halt m =>
          rw [hresult] at hflushes
          simp only [hresult] at hend hrun
          cases halt with
          | error e =>
              cases hend
              exact ⟨.failed, ⟨e, m, ⟨p, hfound, hresult⟩, hflushes, by rw [hrun]; rfl, by rw [hrun]⟩, rfl⟩
          | fault f => cases hend
          | exhausted => cases hend

/-- The current scope of a session is the global one, whatever the sink of the next run does. -/
theorem Reachable.current_run (hs : s.Reachable) (sink : Sink) :
    ((s.withSink sink).run steps source).2.machine.current = globalScope := by
  have hfits : (s.withSink sink).Fits false := ⟨hs.fits.current, hs.fits.unused, hs.fits.heap⟩
  exact (hfits.run nofun).current

/-- **A run that finishes is refused, fails or succeeds.**  Exactly one of the three holds, whatever the sink does;
its status and exit code are those of the verdict; and the current scope is the global one afterwards. -/
theorem run_trichotomy (hs : s.Reachable) (sink : Sink) {status : Status}
    (hend : ((s.withSink sink).run steps source).1.ending = .finished status) :
    (∃! v : Verdict, (s.withSink sink).Finishes steps source v ∧ status = v.status ∧
      status.exitCode = v.exitCode) ∧
    ((s.withSink sink).run steps source).2.machine.current = globalScope := by
  obtain ⟨v, hfinishes, rfl⟩ := exists_finishes hend
  refine ⟨⟨v, ⟨hfinishes, rfl, v.exitCode_status⟩, ?_⟩, hs.current_run sink⟩
  -- No two verdicts have the same status.
  rintro v' ⟨-, hstatus, -⟩
  exact (Verdict.status_injective hstatus).symm

/-- A session with a function that prints. -/
def printSession : Session :=
  ((Session.initial .unlimited fun _ => 0).run 8 "function f() \x7b print \"ab\"; return x; \x7d").2

/-- A sink with room for four bytes. -/
def narrow : Sink := ⟨.empty, some 4, false, 0⟩

/-- The sink is full before the function reaches the variable it misses. -/
theorem run_trichotomy_full :
    printSession.Reachable ∧
    ((printSession.withSink narrow).run 20 "print \"c\"; f();").1.ending = .finished ⟨false, true⟩ ∧
    (∃! v : Verdict, (printSession.withSink narrow).Finishes 20 "print \"c\"; f();" v ∧
      (⟨false, true⟩ : Status) = v.status ∧ (⟨false, true⟩ : Status).exitCode = v.exitCode) ∧
    ((printSession.withSink narrow).run 20 "print \"c\"; f();").2.machine.current = globalScope ∧
    ((printSession.withSink narrow).run 20 "print \"c\"; f();").1.reports = [.run (.sink .full)] := by
  have hreachable : printSession.Reachable := .run _ _ (.initial _ _)
  have hend : ((printSession.withSink narrow).run 20 "print \"c\"; f();").1.ending =
      .finished ⟨false, true⟩ := by cbv
  obtain ⟨hverdict, hcurrent⟩ := run_trichotomy hreachable narrow hend
  exact ⟨hreachable, hend, hverdict, hcurrent, by cbv⟩

end Session

end Scriptlet
