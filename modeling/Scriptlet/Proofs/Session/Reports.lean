import Scriptlet.Proofs.Grammar.Progress
import Scriptlet.Proofs.Session.Outcomes

/-!
# What analyses and runs report

* `laterErrors` — what the parser reports, or else the resolver.

Principal results: `analyse_diagnostics` — an analysis reports the lexical errors and then those of a later stage;
`analyse_program_none_iff` — there is no program exactly if a stage has an error; `diagnostics_ne_nil` — and then one is
reported; `Session.run_of_none`, `Session.run_of_some` — a run reports what its analysis found, or interprets the
program.
-/

set_option autoImplicit false

namespace Scriptlet

/-! ## Analyses -/

section Analyses

variable {table : DistanceTable} {firstId : NodeId} {source : String}

/-- The errors that are found after scanning.  A source with lexical errors is not resolved. -/
def laterErrors (table : DistanceTable) (firstId : NodeId) (source : String) : List Diagnostic :=
  match (parse firstId (tokens source)).program with
  | .error errors => errors.map .parse
  | .ok program => if lexErrors source = [] then (resolve table program).errors.map .resolve else []

theorem analyse_diagnostics : (analyse table firstId source).diagnostics =
    (lexErrors source).map .lexical ++ laterErrors table firstId source := by
  unfold analyse laterErrors
  cases hparse : (parse firstId (tokens source)).program with
  | error errors => simp only [hparse]
  | ok program =>
      by_cases hlexical : lexErrors source = []
      · by_cases hresolved : (resolve table program).errors = []
        · simp [hparse, hlexical, hresolved]
        · simp [hparse, hlexical, hresolved]
      · simp [hparse, hlexical]

theorem isRuntime_of_analyse : ∀ d ∈ (analyse table firstId source).diagnostics, d.isRuntime = false := by
  have hmap : ∀ {α : Type} (f : α → Diagnostic) (xs : List α), (∀ x, (f x).isRuntime = false) →
      ∀ d ∈ xs.map f, d.isRuntime = false := by
    intro α f xs hf d hd
    obtain ⟨x, -, rfl⟩ := List.mem_map.mp hd
    exact hf x
  rw [analyse_diagnostics, laterErrors]
  intro d hd
  rcases List.mem_append.mp hd with hd | hd
  · exact hmap _ _ (fun _ => rfl) d hd
  · split at hd
    · exact hmap _ _ (fun _ => rfl) d hd
    · split at hd
      · exact hmap _ _ (fun _ => rfl) d hd
      · cases hd

/-- No program is found exactly if some stage has an error. -/
theorem analyse_program_none_iff : (analyse table firstId source).program = none ↔
    lexErrors source ≠ [] ∨ (∃ errors, (parse firstId (tokens source)).program = .error errors) ∨
      ∃ p, (parse firstId (tokens source)).program = .ok p ∧ (resolve table p).errors ≠ [] := by
  rw [Option.eq_none_iff_forall_ne_some]
  constructor
  · intro hnone
    by_cases hlexical : lexErrors source = []
    · right
      cases hparse : (parse firstId (tokens source)).program with
      | error errors => exact .inl ⟨errors, rfl⟩
      | ok p => exact .inr ⟨p, rfl, fun hresolved => hnone p (analyse_program_iff.mpr ⟨hlexical, hparse, hresolved⟩)⟩
    · exact .inl hlexical
  · intro herror p hsome
    obtain ⟨hlexical, hparse, hresolved⟩ := analyse_program_iff.mp hsome
    rcases herror with h | ⟨errors, h⟩ | ⟨p', h, herrors⟩
    · exact h hlexical
    · rw [hparse] at h
      cases h
    · rw [hparse] at h
      cases h
      exact herrors hresolved

/-- **Where no program is found, an error is reported.** -/
theorem diagnostics_ne_nil (h : (analyse table firstId source).program = none) :
    (analyse table firstId source).diagnostics ≠ [] := by
  rw [analyse_diagnostics]
  intro hnil
  obtain ⟨hlexical, hlater⟩ := List.append_eq_nil_iff.mp hnil
  rw [List.map_eq_nil_iff] at hlexical
  rcases analyse_program_none_iff.mp h with hne | ⟨errors, hparse⟩ | ⟨p, hparse, hresolved⟩
  · exact hne hlexical
  · rw [laterErrors, hparse] at hlater
    exact (parse_error (ended_tokens source) hparse).1 (List.map_eq_nil_iff.mp hlater)
  · rw [laterErrors, hparse] at hlater
    simp only [if_pos hlexical, List.map_eq_nil_iff] at hlater
    exact hresolved hlater

end Analyses

/-! ## Runs -/

namespace Session

variable {s : Session} {source : String} {p : Program}

/-- Without a program, a run changes nothing but the table and the free ids. -/
theorem run_of_none (steps : Nat) (h : (analyse s.machine.table s.nextId source).program = none) :
    s.run steps source =
      let found := analyse s.machine.table s.nextId source
      (⟨.empty, found.diagnostics, .finished ⟨true, false⟩⟩, ⟨s.withTable found.table, found.nextId⟩) := by
  unfold Session.run withTable
  simp only [h]

/-- The machine that a program leaves, however it ends. -/
def resultMachine : EStateM.Result Halt Machine Unit → Machine
  | .ok _ m => m
  | .error _ m => m

theorem run_of_some (steps : Nat) (h : (analyse s.machine.table s.nextId source).program = some p) :
    s.run steps source =
      let found := analyse s.machine.table s.nextId source
      let result := interpret steps p (s.withTable found.table)
      (.ofResult s.machine.sink.written.size result, ⟨resultMachine result, found.nextId⟩) := by
  unfold Session.run withTable
  simp only [h]
  cases interpret steps p { s.machine with table := (analyse s.machine.table s.nextId source).table } <;> rfl

/-- What a program reports is a run-time error, and it ends without a static one. -/
theorem ofResult_spec (start : Nat) (result : EStateM.Result Halt Machine Unit) :
    (∀ d ∈ (Run.ofResult start result).reports, d.isRuntime = true) ∧
      ∀ status, (Run.ofResult start result).ending = .finished status → status.hadStaticError = false := by
  cases result with
  | ok _ m => simp [Run.ofResult]
  | error halt m => cases halt <;> simp [Run.ofResult, ofHalt, Diagnostic.isRuntime]

end Session

end Scriptlet
