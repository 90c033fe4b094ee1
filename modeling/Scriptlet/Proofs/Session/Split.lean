import Mathlib
import Scriptlet.Proofs.Alike.Resolve
import Scriptlet.Proofs.Grammar.Joined
import Scriptlet.Proofs.NodeIds.Erased
import Scriptlet.Proofs.Run.Continues
import Scriptlet.Proofs.Session.Invisible
import Scriptlet.Proofs.Session.Outcomes
import Scriptlet.Proofs.Token.Seam

/-!
# Sources run one after another and joined sources

Two sources that are run one after another do the same as one source that holds both, with a newline between them.
The joined source is read as the two programs one after the other, where the second stands on later lines and the node
ids may be handed out in another order.

* `Run.Joins` — the outcome of a joined source, compared with those of its two parts.

Principal results: `Session.Fits.runProgram_eq` — programs equal up to node ids run alike; `interpret_append` — a program
that is followed by another; `Session.split_immaterial` — splitting a source changes nothing.
-/

set_option autoImplicit false

namespace Scriptlet

/-! ## Programs equal up to node ids -/

section Renumbered

variable {strict : Bool} {s : Session} {p p' : Program} {n n' : Nat}

/-- A table that knows no free id is not changed by renaming them. -/
theorem Session.Fits.renames (hs : s.Fits strict) {f : Equiv.Perm NodeId} (hf : ∀ id, id < s.nextId → f id = id) :
    DistanceTable.Renames f s.machine.table s.machine.table := by
  intro id
  by_cases hid : id < s.nextId
  · rw [hf id hid]
  · have hnew : s.nextId ≤ f id := by
      by_contra hlt
      have heq := f.injective (hf (f id) (Nat.lt_of_not_le hlt))
      rw [heq] at hlt
      exact hlt (Nat.le_of_not_lt hid)
    rw [hs.unused id (Nat.le_of_not_lt hid), hs.unused _ hnew]

/-- **Programs equal up to node ids run alike**, if the ids of each are pairwise different and new. -/
theorem Session.Fits.runProgram_eq (hs : s.Fits strict) (h : p.eraseIds = p'.eraseIds)
    (hp : Spans s.nextId (Reference.ids (Stmt.referencesAll p)) n)
    (hp' : Spans s.nextId (Reference.ids (Stmt.referencesAll p')) n') :
    (resolve s.machine.table p').errors = (resolve s.machine.table p).errors ∧
      ∀ steps, s.runProgram steps p' = s.runProgram steps p := by
  obtain ⟨f, hfixed, rfl⟩ := Program.exists_renaming h hp hp'
  obtain ⟨herrors, htable⟩ := resolve_mapIds f.injective (hs.renames hfixed) p
  refine ⟨herrors, fun steps => ?_⟩
  have hrun := interpret_mapIds ⟨f, _, _, htable⟩ steps p (s.withTable (resolve s.machine.table p).table) rfl
  have hmachine : (s.withTable (resolve s.machine.table p).table).rename f
      (resolve s.machine.table (Stmt.mapIdsAll f p)).table =
      s.withTable (resolve s.machine.table (Stmt.mapIdsAll f p)).table := by
    unfold Session.withTable Machine.rename
    rw [hs.heap.mapIds_of_fixed hfixed]
  simp only [IdRenaming.machine, hmachine] at hrun
  unfold Session.runProgram
  cases hr : interpret steps p (s.withTable (resolve s.machine.table p).table) with
  | ok a m =>
      rw [hr] at hrun
      rw [hrun.2]
      rfl
  | error halt m =>
      rw [hr] at hrun
      rw [hrun.2]
      rfl

end Renumbered

/-! ## Programs one after the other -/

section Append

variable {p q : Program} {table : DistanceTable} {steps : Nat} {m m' : Machine}

theorem Stmt.resolveAll_append (site : Site) (p q : Program) (st : Resolution) :
    Stmt.resolveAll site (p ++ q) st = Stmt.resolveAll site q (Stmt.resolveAll site p st) := by
  induction p generalizing st with
  | nil => rfl
  | cons s p ih => exact ih _

/-- A program after one without errors is resolved as on its own. -/
theorem resolve_append (h : (resolve table p).errors = []) :
    resolve table (p ++ q) = resolve (resolve table p).table q := by
  have hscopes := (Stmt.resolveAll_walks ⟨.none, false⟩ p ⟨[], table, []⟩).scopes
  rw [Stmt.scopesAfterAll_nil] at hscopes
  unfold resolve at h ⊢
  rw [Stmt.resolveAll_append]
  -- after the first program the walk is at top level again, and has no errors
  generalize Stmt.resolveAll ⟨.none, false⟩ p ⟨[], table, []⟩ = st at h hscopes ⊢
  obtain ⟨scopes, after, errors⟩ := st
  subst h hscopes
  rfl

/-- A run of statements that ends well goes on with the statements that follow. -/
theorem executeTop_append (q : Program) : ∀ {steps : Nat} {p : Program} {m : Machine},
    executeTop steps p m = .ok () m' →
    p.length < steps ∧ executeTop steps (p ++ q) m = executeTop (steps - p.length) q m'
  | 0, _, _, h => by cases h
  | steps + 1, [], _, h => by
      cases h
      exact ⟨Nat.succ_pos steps, rfl⟩
  | steps + 1, s :: p, m, h => by
      simp only [executeTop, List.cons_append, Bind.bind, EStateM.bind] at h ⊢
      cases hs : execute steps s m with
      | ok flow m₁ =>
          simp only [hs] at h ⊢
          obtain ⟨hlen, hrest⟩ := executeTop_append q h
          rw [hrest, List.length_cons, Nat.add_sub_add_right]
          exact ⟨Nat.succ_lt_succ hlen, rfl⟩
      | error halt m₁ =>
          simp only [hs] at h
          cases h

/-- A run that ends well had no error, and the sink could flush. -/
theorem Machine.finish_ok {result : Except RunError Unit} (h : m.finish result = .ok () m') :
    result = .ok () ∧ m' = { m with current := globalScope, sink := m.sink.flush } := by
  unfold Machine.finish at h
  simp only at h
  split at h
  · rename_i hresult
    cases h
    split at hresult
    · cases hresult
    · exact ⟨hresult, rfl⟩
  · cases h

theorem interpret_ok (h : interpret steps p m = .ok () m') :
    ∃ m₁, executeTop steps p m = .ok () m₁ ∧
      m' = { m₁ with current := globalScope, sink := m₁.sink.flush } := by
  unfold interpret at h
  split at h
  · rename_i m₁ hr
    exact ⟨m₁, hr, (Machine.finish_ok h).2⟩
  · cases (Machine.finish_ok h).1
  · cases h

/-- **A program that is followed by another** goes on with it, if it ends well. -/
theorem interpret_append (q : Program) (h : executeTop steps p m = .ok () m') :
    interpret steps (p ++ q) m = interpret (steps - p.length) q m' := by
  unfold interpret
  rw [(executeTop_append q h).2]

end Append

/-! ## Programs one after the other in a session -/

/-- The variation of a program whose lines are replaced. -/
def Variation.lineless (table : DistanceTable) : Variation := ⟨table, table, (· = .keep), rfl, fun _ _ => True⟩

theorem Variation.lineless_separates (table : DistanceTable) : (lineless table).Separates fun _ => True := by
  refine ⟨trivial, ?_⟩
  rintro σ τ a b rfl rfl - - heq
  exact heq

/-- The variation of a program that runs while the table already knows a later one. -/
def Variation.extended (table table' : DistanceTable) : Variation := ⟨table, table', (· = .keep), rfl, Eq⟩

theorem Variation.extended_implies (table table' : DistanceTable) :
    (extended table table').Implies (lineless table') where
  refers := by
    intro Φ id name name' h
    refine ⟨rfl, ?_, trivial⟩
    have hspelling := h.spelling
    rw [← h.distance] at hspelling
    exact hspelling
  maps := fun hσ => hσ
  lines := fun _ => trivial

section Joined

variable {strict : Bool} {s : Session} {p q : Program} {n₁ n₂ : Nat}

/-- The second program on other lines resolves to the same distances. -/
theorem resolve_joined (f : Nat → Nat) (hs : s.Fits strict)
    (hp : Spans s.nextId (Reference.ids (Stmt.referencesAll p)) n₁)
    (hq : Spans n₁ (Reference.ids (Stmt.referencesAll q)) n₂) (herrors : (resolve s.machine.table p).errors = [])
    (herrors' : (resolve (resolve s.machine.table p).table q).errors = []) :
    (resolve s.machine.table (p ++ Stmt.mapLinesAll f q)).errors = [] ∧
      (resolve s.machine.table (p ++ Stmt.mapLinesAll f q)).table =
        (resolve (resolve s.machine.table p).table q).table := by
  rw [resolve_append herrors]
  have halike : Stmt.AlikeAll (.lineless (resolve (resolve s.machine.table p).table q).table) [] q
      (Stmt.mapLinesAll f q) := .mapLines .nil ⟨fun _ _ => rfl, fun _ => trivial⟩
  refine resolve_alike (Variation.lineless_separates _) halike (fun _ _ => trivial) herrors' hq.nodup ?_ rfl
  intro id hid
  have hle := (hq.bounds id hid).1
  rw [resolve_distance? fun hmem => Nat.not_lt.mpr hle (hp.bounds id hmem).2]
  exact hs.unused id (Nat.le_trans hp.le hle)

/-- The first program does the same while the table already knows the second one. -/
theorem Session.Fits.executeTop_extended (hs : s.Fits strict)
    (hp : Spans s.nextId (Reference.ids (Stmt.referencesAll p)) n₁) {T₁ T₂ : DistanceTable}
    (hagree : ∀ id, id < n₁ → T₂.distance? id = T₁.distance? id) {steps₁ steps : Nat} (hsteps : steps₁ ≤ steps)
    {m : Machine} (htop : executeTop steps₁ p (s.withTable T₁) = .ok () m) :
    ∃ ρ m', executeTop steps p (s.withTable T₂) = .ok () m' ∧
      Machine.Alike (.lineless T₂) ρ [] { m with current := globalScope, sink := m.sink.flush, table := T₂ } m' := by
  have hmachine : Machine.Alike (.extended T₁ T₂) (fun _ => .keep) [] (s.withTable T₁) (s.withTable T₂) :=
    hs.alike (fun id hid => hagree id (Nat.lt_of_lt_of_le hid hp.le)) fun _ => rfl
  have hself : Stmt.AlikeAll (.extended T₁ T₂) [] p p :=
    .refl .nil ⟨fun r hr => hagree r.id (hp.bounds r.id (Reference.mem_ids hr)).2, fun _ => rfl⟩
  have hfirst := executeTop_alike steps₁ (steps - steps₁) hself _ _ _ hmachine
  rw [htop, Nat.sub_add_cancel hsteps] at hfirst
  generalize executeTop steps p (s.withTable T₂) = r at hfirst ⊢
  cases hfirst with
  | @ok ρ _ _ m' hm _ =>
      have hcurrent : m.current = globalScope := hm.marked
      exact ⟨ρ, m', rfl, hm.heap.imp (Variation.extended_implies T₁ T₂), hm.current.trans hcurrent, rfl, rfl,
        hm.table', ⟨hm.sink.written, hm.sink.limit, hm.sink.flushFails⟩, hm.clock, hm.ticks⟩

/-- **Two programs run one after the other end like the second one**, on whatever lines it stands. -/
theorem Session.Fits.interpret_joined (f : Nat → Nat) (hs : s.Fits strict)
    (hp : Spans s.nextId (Reference.ids (Stmt.referencesAll p)) n₁)
    (hq : Spans n₁ (Reference.ids (Stmt.referencesAll q)) n₂) {steps₁ steps₂ steps : Nat}
    (hsteps : steps₁ + steps₂ ≤ steps) {T₁ : DistanceTable} {m : Machine}
    (hrun : interpret steps₁ p (s.withTable T₁) = .ok () m) :
    EndsAlike (.lineless (resolve T₁ q).table) (interpret steps₂ q { m with table := (resolve T₁ q).table })
      (interpret steps (p ++ Stmt.mapLinesAll f q) (s.withTable (resolve T₁ q).table)) := by
  have hagree : ∀ id, id < n₁ → (resolve T₁ q).table.distance? id = T₁.distance? id := fun id hid =>
    resolve_distance? fun hmem => Nat.not_lt.mpr (hq.bounds id hmem).1 hid
  obtain ⟨m₁, htop, rfl⟩ := interpret_ok hrun
  obtain ⟨ρ, m', hfirst, hm⟩ :=
    hs.executeTop_extended hp hagree (Nat.le_trans (Nat.le_add_right _ _) hsteps) htop
  have hlength := (executeTop_append (Stmt.mapLinesAll f q) htop).1
  have hmoved : Stmt.AlikeAll (.lineless (resolve T₁ q).table) [] q (Stmt.mapLinesAll f q) :=
    .mapLines .nil ⟨fun _ _ => rfl, fun _ => trivial⟩
  have hsecond := interpret_alike steps₂ (steps - p.length - steps₂) hm hmoved
  rw [Nat.sub_add_cancel (by omega)] at hsecond
  rw [interpret_append _ hfirst]
  exact hsecond

end Joined

/-! ## Joined sources -/

/-- A joined source is read as the programs of its parts one after the other, up to node ids. -/
theorem parse_newline {source source' : String} {firstId secondId : NodeId} {p q : Program}
    (hlexical : lexErrors source = []) (hp : (parse firstId (tokens source)).program = .ok p)
    (hq : (parse secondId (tokens source')).program = .ok q) :
    ∃ f r, (parse firstId (tokens (source ++ "\n" ++ source'))).program = .ok r ∧
      r.eraseIds = Program.eraseIds (p ++ Stmt.mapLinesAll f q) := by
  obtain ⟨ts, k, hts, hjoined⟩ := tokens_newline source' hlexical
  obtain ⟨us, line, hus, hplain⟩ := tokens_spec source
  obtain ⟨ts', line', hts', hplain'⟩ := tokens_spec source'
  obtain ⟨rfl, -⟩ := List.append_inj' (hus.symm.trans hts) rfl
  rw [hus] at hp
  rw [hts'] at hq
  rw [hjoined, hts', List.map_append, ← List.append_assoc]
  exact ⟨_, Grammar.parse_joined (· + k) (fun t ht => (hplain t ht).notEnd) (fun t ht => (hplain' t ht).notEnd)
    rfl rfl rfl hp hq⟩

namespace Session

variable {s : Session} {source source' : String} {steps : Nat}

/-- A run without errors is the run of a program that ends well. -/
theorem run_finished (h : (s.run steps source).1.ending = .finished ⟨false, false⟩) :
    ∃ p m, (analyse s.machine.table s.nextId source).program = some p ∧
      interpret steps p (s.withTable (resolve s.machine.table p).table) = .ok () m ∧
      (s.run steps source).2 = ⟨m, (analyse s.machine.table s.nextId source).nextId⟩ := by
  cases hfound : (analyse s.machine.table s.nextId source).program with
  | none =>
      unfold Session.run at h
      simp only [hfound] at h
      cases h
  | some p =>
      obtain ⟨hrun, hsession⟩ := run_of_program steps hfound
      rw [hrun] at h
      unfold runProgram at h
      cases hr : interpret steps p (s.withTable (resolve s.machine.table p).table) with
      | ok a m => exact ⟨p, m, rfl, hr, hsession m hr⟩
      | error halt m =>
          rw [hr] at h
          cases halt <;> cases h

/-- A source without errors has none after another source. -/
theorem Fits.program_after (hs : s.Fits false)
    (hfinished : (s.run steps source).1.ending = .finished ⟨false, false⟩)
    (hfound : (analyse s.machine.table s.nextId source').program.isSome) :
    ∃ q, (analyse (s.run steps source).2.machine.table (s.run steps source).2.nextId source').program = some q := by
  obtain ⟨p, m, hp, hrun, hsession⟩ := run_finished hfinished
  have hle : s.nextId ≤ (analyse s.machine.table s.nextId source).nextId := (layout_extends false s source).bound
  have htable : m.table = (analyse s.machine.table s.nextId source).table := by
    rw [(analyse_program hp).2.2]
    exact ((interpret_continues steps p).of_ok hrun).table
  obtain ⟨q, hq⟩ := Option.isSome_iff_exists.mp hfound
  obtain ⟨-, hprogram, -⟩ := analyse_skipIds (Nat.le_refl _) (hs.renames_analyse source) source'
  rw [Nat.add_sub_cancel' hle, hq] at hprogram
  rw [hsession, htable]
  exact ⟨_, hprogram⟩

/-- A joined source runs the programs of its parts one after the other, with the distances of both. -/
theorem Fits.run_newline {strict : Bool} (hs : s.Fits strict) {p q : Program}
    (hp : (analyse s.machine.table s.nextId source).program = some p)
    (hq : (analyse (resolve s.machine.table p).table (analyse s.machine.table s.nextId source).nextId
      source').program = some q) :
    ∃ f, ∀ steps, (s.run steps (source ++ "\n" ++ source')).1 =
      Run.ofResult s.machine.sink.written.size (interpret steps (p ++ Stmt.mapLinesAll f q)
        (s.withTable (resolve (resolve s.machine.table p).table q).table)) := by
  obtain ⟨hlexical, hparse, herrors⟩ := analyse_program_iff.mp hp
  obtain ⟨hlexical', hparse', herrors'⟩ := analyse_program_iff.mp hq
  rw [analyse_nextId] at hparse'
  obtain ⟨f, r, hr, heq⟩ := parse_newline hlexical hparse hparse'
  have hspans := parse_spans hparse
  have hspans' := parse_spans hparse'
  have hids : Reference.ids (Stmt.referencesAll (p ++ Stmt.mapLinesAll f q)) =
      Reference.ids (Stmt.referencesAll p) ++ Reference.ids (Stmt.referencesAll q) := by
    rw [Stmt.referencesAll_append, Reference.ids_append, Stmt.referencesAll_mapLines]
  have hboth := hspans.append hspans'
  rw [← hids] at hboth
  obtain ⟨hsame, hrun⟩ := hs.runProgram_eq heq.symm hboth (parse_spans hr)
  obtain ⟨hnone, htable⟩ := resolve_joined f hs hspans hspans' herrors herrors'
  have hfound : (analyse s.machine.table s.nextId (source ++ "\n" ++ source')).program = some r :=
    analyse_program_iff.mpr ⟨lexErrors_newline hlexical hlexical', hr, hsame.trans hnone⟩
  refine ⟨f, fun steps => ?_⟩
  rw [run_eq_runProgram steps hfound, hrun, runProgram, htable]

end Session

/-! ## Outcomes -/

/-- The outcome of a joined source: the output of both parts, and the end of the second one, lines aside. -/
structure Run.Joins (first second joined : Run) : Prop where
  output : joined.output = first.output ++ second.output
  messages : joined.reports.map Diagnostic.message = second.reports.map Diagnostic.message
  ending : joined.ending = second.ending

section Outcomes

variable {sink : Sink} {m : Machine} {r r' : EStateM.Result Halt Machine Unit}

/-- An outcome with the output of an earlier run before it. -/
theorem Run.joins_ofResult (hsink : sink.Continues m.sink) (hr : m.ContinuesIn r) :
    Run.Joins (.ofResult sink.written.size (.ok () m)) (.ofResult m.sink.written.size r)
      (.ofResult sink.written.size r) := by
  cases r with
  | ok a m' => exact ⟨hsink.since hr.sink, rfl, rfl⟩
  | error halt m' => exact ⟨hsink.since hr.sink, rfl, rfl⟩

/-- An end that is like that of the second part. -/
theorem Run.Joins.alike {first second : Run} {start : Nat} {table : DistanceTable}
    (h : Run.Joins first second (.ofResult start r)) (halike : EndsAlike (.lineless table) r r')
    (hsteps : second.ending ≠ .exhausted) : Run.Joins first second (.ofResult start r') := by
  have hends : (Run.ofResult start r).ending ≠ .exhausted := by
    rw [h.ending]
    exact hsteps
  obtain ⟨houtput, hmessages, hending⟩ := halike.outcome (fun _ hσ => hσ) hends
  exact ⟨houtput.trans h.output, hmessages.trans h.messages, hending.trans h.ending⟩

end Outcomes

namespace Session

variable {s : Session} {source source' : String}

/-- **Splitting a source changes nothing.**  Let a source run without errors, and another one, that has no static error,
run after it to its end.  Then the source that holds both, with a newline between them, prints what both print and ends
as the second one does, with the same message; a number of steps that is enough for both is enough for it. -/
theorem split_immaterial (hs : s.Reachable) {steps₁ steps₂ : Nat}
    (hfinished : (s.run steps₁ source).1.ending = .finished ⟨false, false⟩)
    (hfound : (analyse s.machine.table s.nextId source').program.isSome)
    (hends : ((s.run steps₁ source).2.run steps₂ source').1.ending ≠ .exhausted) {steps : Nat}
    (hsteps : steps₁ + steps₂ ≤ steps) :
    Run.Joins (s.run steps₁ source).1 ((s.run steps₁ source).2.run steps₂ source').1
      (s.run steps (source ++ "\n" ++ source')).1 := by
  obtain ⟨p, m, hp, hrun, hsession⟩ := run_finished hfinished
  obtain ⟨q, hq⟩ := hs.fits.program_after hfinished hfound
  rw [hsession] at hq hends ⊢
  have hcontinues := (interpret_continues steps₁ p).of_ok hrun
  have htable : m.table = (resolve s.machine.table p).table := hcontinues.table
  -- the two runs
  have hfirst : (s.run steps₁ source).1 = .ofResult s.machine.sink.written.size (.ok () m) := by
    rw [run_eq_runProgram steps₁ hp, runProgram, hrun]
  have hsecond := run_eq_runProgram steps₂ hq
  unfold runProgram withTable at hsecond
  rw [hsecond] at hends ⊢
  rw [htable] at hq hends ⊢
  -- the joined run
  obtain ⟨f, hjoined⟩ := hs.fits.run_newline hp hq
  rw [hfirst, hjoined steps]
  have hspans := parse_spans (analyse_program hp).1
  have hspans' := parse_spans (analyse_program hq).1
  rw [analyse_nextId] at hspans'
  have halike := hs.fits.interpret_joined f hspans hspans' hsteps hrun
  have hsink : s.machine.sink.Continues { m with table := (resolve (resolve s.machine.table p).table q).table }.sink :=
    hcontinues.sink
  exact (Run.joins_ofResult hsink (interpret_continues steps₂ q _)).alike halike hends

/-- A source that ends in an `if` without `else`. -/
def opening : String := "var a = \"one\";\nfunction f(b) { print a; a = b; }\nif (true) f(\"two\");"

/-- A source that goes on with the names of `opening` and fails. -/
def closing : String := "f(a + \"!\");\nprint a; missing;"

/-- Both print, the second fails, and so does the joined source. -/
theorem split_immaterial_failing :
    ((initial .unlimited fun _ => 0).run 20 opening).1.ending = .finished ⟨false, false⟩ ∧
    (((initial .unlimited fun _ => 0).run 20 opening).2.run 20 closing).1.ending = .finished ⟨false, true⟩ ∧
    Run.Joins ((initial .unlimited fun _ => 0).run 20 opening).1
      (((initial .unlimited fun _ => 0).run 20 opening).2.run 20 closing).1
      ((initial .unlimited fun _ => 0).run 40 (opening ++ "\n" ++ closing)).1 ∧
    ((initial .unlimited fun _ => 0).run 40 (opening ++ "\n" ++ closing)).1.output = "one\ntwo\ntwo!\n".toUTF8 := by
  have hfinished : ((initial .unlimited fun _ => 0).run 20 opening).1.ending = .finished ⟨false, false⟩ := by cbv
  have hfound : (analyse (initial .unlimited fun _ => 0).machine.table 0 closing).program.isSome := by cbv
  have hfails : (((initial .unlimited fun _ => 0).run 20 opening).2.run 20 closing).1.ending =
      .finished ⟨false, true⟩ := by cbv
  have hends : (((initial .unlimited fun _ => 0).run 20 opening).2.run 20 closing).1.ending ≠ .exhausted := by
    rw [hfails]
    decide
  exact ⟨hfinished, hfails, split_immaterial (.initial _ _) hfinished hfound hends (by decide), by cbv⟩

end Session

end Scriptlet
