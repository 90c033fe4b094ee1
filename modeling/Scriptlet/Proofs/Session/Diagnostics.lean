import Mathlib
import Scriptlet.Proofs.Run.Blame
import Scriptlet.Proofs.Session.Invisible
import Scriptlet.Proofs.Session.Reports

/-!
# Where diagnostics point

A diagnostic names a line, and a static one also a token.  Both are those of the source that is run; a run-time error
may also be on a line of an earlier source, whose functions are still there.

* `Session.Ran past s` — the session has run the sources `past`, the latest first.
* `Diagnostic.Points past source d` — what a diagnostic of a source points at, after the sources `past`.

Principal results: `Session.reachable_iff` — the sessions that have run some sources are the reachable ones;
`Session.reports_point`.
-/

set_option autoImplicit false

namespace Scriptlet

/-- The line of a token of one of the sources. -/
def IsLineOf (sources : List String) (line : Nat) : Prop := ∃ source ∈ sources, ∃ t ∈ tokens source, t.line = line

theorem IsLineOf.cons {sources : List String} (source : String) {line : Nat} (h : IsLineOf sources line) :
    IsLineOf (source :: sources) line := by
  obtain ⟨earlier, hmem, hline⟩ := h
  exact ⟨earlier, List.mem_cons_of_mem _ hmem, hline⟩

namespace Diagnostic

/-- The diagnostic names the end token of a source and its line. -/
def PointsAtEnd (source : String) (d : Diagnostic) : Prop :=
  ∃ t, (tokens source).getLast? = some t ∧ t.kind = .eof ∧ d.context = " at end" ∧ d.line? = some t.line

/-- The diagnostic names a token of a source and its line. -/
def PointsAtToken (source : String) (d : Diagnostic) : Prop :=
  ∃ t ∈ tokens source, d.context = " at '" ++ t.lexeme ++ "'" ∧ d.line? = some t.line

/-- What a diagnostic points at: a lexical one at a line of the source, any other static one at a token of it, and a
run-time error at a line of the source or of an earlier one.  A failure of the sink has no line. -/
def Points (past : List String) (source : String) (d : Diagnostic) : Prop :=
  match d with
  | .lexical e => 1 ≤ e.line ∧ e.line ≤ 1 + newlines source.toList
  | .parse _ => d.PointsAtEnd source ∨ d.PointsAtToken source
  | .resolve _ => d.PointsAtEnd source ∨ d.PointsAtToken source
  | .run (.script line _) => IsLineOf (source :: past) line
  | .run (.sink _) => d.line? = none

end Diagnostic

/-! ## Static diagnostics -/

theorem Ended.getLast?_eq {ts : List Token} {t : Token} (h : Ended ts) (ht : t ∈ ts) (hend : t.kind = .eof) :
    ts.getLast? = some t := by
  induction h with
  | last _ =>
      rw [List.mem_singleton.mp ht]
      rfl
  | @next first rest hfirst hrest ih =>
      rcases List.mem_cons.mp ht with rfl | ht
      · exact absurd hend hfirst
      · rw [List.getLast?_cons, ih ht]
        rfl

section Analysis

variable {table : DistanceTable} {firstId : NodeId} {source : String}

/-- A parse error at a token points at it. -/
theorem points_of_parse (past : List String) {e : ParseError} (h : e.PointsInto (tokens source)) :
    (Diagnostic.parse e).Points past source := by
  obtain ⟨t, ht, mistake, rfl⟩ := h
  by_cases hend : t.kind = .eof
  · left
    refine ⟨t, (ended_tokens source).getLast?_eq ht hend, hend, ?_, rfl⟩
    simp only [Diagnostic.context, ParseError.at, Token.location, hend, Location.text]
  · right
    have hlocation : t.location = .at t.lexeme := by
      unfold Token.location
      split
      · rename_i heof
        exact absurd heof hend
      · rfl
    refine ⟨t, ht, ?_, rfl⟩
    simp only [Diagnostic.context, ParseError.at, hlocation, Location.text]

/-- **Every diagnostic of an analysis points into the source.** -/
theorem points_of_analyse (past : List String) :
    ∀ d ∈ (analyse table firstId source).diagnostics, d.Points past source := by
  intro d hd
  rw [analyse_diagnostics] at hd
  rcases List.mem_append.mp hd with hd | hd
  · obtain ⟨e, he, rfl⟩ := List.mem_map.mp hd
    exact lexErrors_line he
  · unfold laterErrors at hd
    cases hparse : (parse firstId (tokens source)).program with
    | error errors =>
        rw [hparse] at hd
        obtain ⟨e, he, rfl⟩ := List.mem_map.mp hd
        exact points_of_parse past ((parse_error (ended_tokens source) hparse).2 e he)
    | ok p =>
        rw [hparse] at hd
        simp only at hd
        split at hd
        · obtain ⟨e, he, rfl⟩ := List.mem_map.mp hd
          obtain ⟨t, ht, hident⟩ := List.mem_map.mp (parse_places hparse (resolve_places he))
          obtain ⟨hlexeme, hline⟩ : t.lexeme = e.lexeme ∧ t.line = e.line := Ident.mk.inj hident
          refine .inr ⟨t, ht, ?_, ?_⟩
          · rw [hlexeme]
            rfl
          · rw [hline]
            rfl
        · cases hd

end Analysis

/-! ## Runs -/

namespace Session

/-- The session has run these sources, the latest first. -/
inductive Ran : List String → Session → Prop where
  | initial (sink : Sink) (clock : Nat → Float) : Ran [] (Session.initial sink clock)
  | run {past : List String} {s : Session} (steps : Nat) (source : String) : Ran past s →
      Ran (source :: past) (s.run steps source).2

/-- The sessions that have run some sources are the reachable ones. -/
theorem reachable_iff {s : Session} : s.Reachable ↔ ∃ past, Ran past s := by
  constructor
  · intro h
    induction h with
    | initial sink clock => exact ⟨[], .initial sink clock⟩
    | run steps source _ ih =>
        obtain ⟨past, hran⟩ := ih
        exact ⟨source :: past, .run steps source hran⟩
  · rintro ⟨past, hran⟩
    induction hran with
    | initial sink clock => exact .initial sink clock
    | run steps source _ ih => exact .run steps source ih

variable {s : Session} {past : List String} {source : String} {p : Program}

/-- The program of a source blames lines of the source and of earlier ones. -/
theorem interpret_endsOn (hs : s.machine.heap.OnLines (IsLineOf past)) (table : DistanceTable) (steps : Nat)
    (hfound : (analyse s.machine.table s.nextId source).program = some p) :
    EndsOn (IsLineOf (source :: past)) (fun _ => True) (interpret steps p (s.withTable table)) := by
  have hplaces : OnLines (IsLineOf (source :: past)) (Stmt.placesAll p) := by
    intro place hplace
    obtain ⟨t, ht, rfl⟩ := List.mem_map.mp (parse_places (analyse_program hfound).1 hplace)
    exact ⟨source, List.mem_cons_self, t, ht, rfl⟩
  have hheap : s.machine.heap.OnLines (IsLineOf (source :: past)) := hs.mono fun _ => .cons source
  exact interpret_blames steps hplaces (s.withTable table) hheap

/-- **The functions of a session are on lines of the sources that it has run.** -/
theorem Ran.onLines (h : Ran past s) : s.machine.heap.OnLines (IsLineOf past) := by
  induction h with
  | initial sink clock => exact ⟨nofun, nofun⟩
  | @run past s steps source _ ih =>
      -- Functions of earlier sources stay on the heap, so the lines of all sources so far count.
      cases hfound : (analyse s.machine.table s.nextId source).program with
      | none =>
          rw [run_of_none steps hfound]
          exact ih.mono fun _ => .cons source
      | some p =>
          have hends := interpret_endsOn ih (analyse s.machine.table s.nextId source).table steps hfound
          rw [run_of_some steps hfound]
          simp only
          cases hresult : interpret steps p (s.withTable (analyse s.machine.table s.nextId source).table) with
          | ok _ m =>
              rw [hresult] at hends
              exact hends.1
          | error halt m =>
              rw [hresult] at hends
              exact hends.1

/-- **Diagnostics point at source text.**  Every report of a run points into its source; a run-time error may also be
on a line of a source that the session has run before. -/
theorem reports_point (h : Ran past s) (steps : Nat) (source : String) :
    ∀ d ∈ (s.run steps source).1.reports, d.Points past source := by
  cases hfound : (analyse s.machine.table s.nextId source).program with
  | none =>
      rw [run_of_none steps hfound]
      exact points_of_analyse past
  | some p =>
      have hends := interpret_endsOn h.onLines (analyse s.machine.table s.nextId source).table steps hfound
      rw [run_of_some steps hfound]
      simp only
      cases hresult : interpret steps p (s.withTable (analyse s.machine.table s.nextId source).table) with
      | ok _ m => exact nofun
      | error halt m =>
          rw [hresult] at hends
          cases halt with
          | error e =>
              intro d hd
              obtain rfl := List.mem_singleton.mp hd
              cases e with
              | script line fault => exact hends.2
              | sink e => rfl
          | fault f => exact nofun
          | exhausted => exact nofun

/-- A source with a function that reads a variable on its fourth line. -/
def distant : String := "function f() \x7b\n\n\n  return x;\n\x7d"

/-- The session after it. -/
def distantSession : Session := ((Session.initial .unlimited fun _ => 0).run 8 distant).2

/-- A call on the first line fails on the fourth line of the earlier source. -/
theorem reports_point_distant :
    Ran [distant] distantSession ∧
    (distantSession.run 20 "f();").1.reports = [.run (.script 4 (.undefinedVariable "x"))] ∧
    (Diagnostic.run (.script 4 (.undefinedVariable "x"))).Points [distant] "f();" := by
  have hran : Ran [distant] distantSession := .run _ _ (.initial _ _)
  have hreports : (distantSession.run 20 "f();").1.reports = [.run (.script 4 (.undefinedVariable "x"))] := by cbv
  refine ⟨hran, hreports, reports_point hran 20 "f();" _ ?_⟩
  rw [hreports]
  exact List.mem_cons_self

end Session

end Scriptlet
