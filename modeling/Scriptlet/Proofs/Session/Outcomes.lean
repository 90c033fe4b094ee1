import Scriptlet.Proofs.Alike.Runs
import Scriptlet.Proofs.Session.Layouts

/-!
# Outcomes of programs alike

* `Session.runProgram` — runs a program in a session; `Session.run_eq_runProgram` — running a source is running its
  program.

Principal results: `Session.Fits.alike` — a session is like itself under tables that agree on its node ids;
`EndsAlike.outcome` — ends that are alike give the same output, the same messages and the same ending;
`EndsAlike.outcome_eq` — and the same outcome, if lines are kept.
-/

set_option autoImplicit false

namespace Scriptlet

/-- The outcome that the result of a program stands for; `start` is the size of the output before. -/
def Run.ofResult (start : Nat) : EStateM.Result Halt Machine Unit → Run
  | .ok _ m => ⟨m.sink.since start, [], .finished ⟨false, false⟩⟩
  | .error halt m => ⟨m.sink.since start, (Session.ofHalt halt).1, (Session.ofHalt halt).2⟩

namespace Session

/-- The machine of a session with the distances of another table. -/
def withTable (s : Session) (table : DistanceTable) : Machine := { s.machine with table := table }

/-- Resolves and runs a program in a session. -/
def runProgram (steps : Nat) (s : Session) (p : Program) : Run :=
  .ofResult s.machine.sink.written.size (interpret steps p (s.withTable (resolve s.machine.table p).table))

variable {s : Session} {source : String} {p : Program}

/-- A run of a source: the outcome of its program, and the session after it. -/
theorem run_of_program (steps : Nat) (h : (analyse s.machine.table s.nextId source).program = some p) :
    (s.run steps source).1 = s.runProgram steps p ∧
      ∀ m, interpret steps p (s.withTable (resolve s.machine.table p).table) = .ok () m →
        (s.run steps source).2 = ⟨m, (analyse s.machine.table s.nextId source).nextId⟩ := by
  obtain ⟨-, -, htable⟩ := analyse_program h
  unfold Session.run runProgram withTable
  simp only [h, htable]
  cases interpret steps p { s.machine with table := (resolve s.machine.table p).table } with
  | ok a m => exact ⟨rfl, fun _ hm => by cases hm; rfl⟩
  | error halt m => exact ⟨rfl, nofun⟩

/-- **Running a source is running its program.** -/
theorem run_eq_runProgram (steps : Nat) (h : (analyse s.machine.table s.nextId source).program = some p) :
    (s.run steps source).1 = s.runProgram steps p :=
  (run_of_program steps h).1

/-- **A session is like itself** under tables that agree on the node ids in use. -/
theorem Fits.alike {strict : Bool} {V : Variation} (hs : s.Fits strict)
    (htable : ∀ id, id < s.nextId → V.table'.distance? id = V.table.distance? id)
    (hlines : ∀ line, V.lines line line) :
    Machine.Alike V (fun _ => .keep) [] (s.withTable V.table) (s.withTable V.table') where
  heap := .refl hs.heap htable hlines
  current := rfl
  marked := hs.current
  table := rfl
  table' := rfl
  sink := ⟨rfl, rfl, rfl⟩
  clock := rfl
  ticks := rfl

end Session

section Outcomes

variable {V : Variation} {r r' : EStateM.Result Halt Machine Unit} {start : Nat}

theorem Sink.Alike.since {s s' : Sink} (h : s.Alike s') (start : Nat) : s'.since start = s.since start := by
  unfold Sink.since
  rw [h.written]

/-- **Ends that are alike have outcomes that are alike.**  The messages are the same, lines aside. -/
theorem EndsAlike.outcome (h : EndsAlike V r r') (hmaps : ∀ σ, V.maps σ → σ = .keep)
    (hsteps : (Run.ofResult start r).ending ≠ .exhausted) :
    (Run.ofResult start r').output = (Run.ofResult start r).output ∧
      (Run.ofResult start r').reports.map Diagnostic.message =
        (Run.ofResult start r).reports.map Diagnostic.message ∧
      (Run.ofResult start r').ending = (Run.ofResult start r).ending := by
  cases h with
  | ok hsink => exact ⟨hsink.since start, rfl, rfl⟩
  | exhausted => exact absurd rfl hsteps
  | halted hhalt hsink =>
      refine ⟨hsink.since start, ?_⟩
      cases hhalt with
      | script fault _ => exact ⟨rfl, rfl⟩
      | sink e => exact ⟨rfl, rfl⟩
      | fault hf =>
          cases hf with
          | missingScope => exact ⟨rfl, rfl⟩
          | missingName name distance hσ =>
              rw [hmaps _ hσ]
              exact ⟨rfl, rfl⟩

/-- **Ends that are alike have the same outcome** if lines are kept and there is no fault. -/
theorem EndsAlike.outcome_eq (h : EndsAlike V r r') (hlines : ∀ line line', V.lines line line' → line = line')
    {status : Status} (hend : (Run.ofResult start r).ending = .finished status) :
    Run.ofResult start r' = Run.ofResult start r := by
  cases h with
  | ok hsink => rw [Run.ofResult, Run.ofResult, hsink.since]
  | exhausted => cases hend
  | halted hhalt hsink =>
      rw [Run.ofResult, Run.ofResult, hsink.since]
      cases hhalt with
      | script fault hl => rw [hlines _ _ hl]
      | sink e => rfl
      | fault _ => cases hend

end Outcomes

end Scriptlet
