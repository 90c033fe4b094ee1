import Scriptlet.Session.Basic
import Scriptlet.Proofs.NodeIds.Interval
import Scriptlet.Proofs.Scoping.Filed
import Scriptlet.Proofs.Scoping.Safety

/-!
# Layouts of sessions

The analysis of a source only adds to the table of scope distances, at node ids that were free.  So a layout
that fits all functions made by earlier runs can be extended to the program of the next one.

* `Session.Fits strict s` — between runs: the machine is at top level, the table knows no free node id, and the
  heap fits the layout of the session.
* `Session.after` — the session after sources run one after another.
* `Session.Visits` — the points of these runs.

Principal results: `Session.Fits.run` — a run leaves a session that fits; `Session.Fits.start` — the program of a
source starts at a point that fits; `Session.Fits.allows` — the faults in which a run may end.
-/

set_option autoImplicit false

namespace Scriptlet

/-! ## Analysis -/

section Analysis

variable {table : DistanceTable} {firstId : NodeId} {source : String} {p : Program}

theorem analyse_nextId : (analyse table firstId source).nextId = (parse firstId (tokens source)).nextId := by
  unfold analyse
  simp only
  split
  · rfl
  · split
    · split <;> rfl
    · rfl

/-- A program is found if there are no errors at all. -/
theorem analyse_program (h : (analyse table firstId source).program = some p) :
    (parse firstId (tokens source)).program = .ok p ∧ (resolve table p).errors = [] ∧
      (analyse table firstId source).table = (resolve table p).table := by
  unfold analyse at h ⊢
  simp only at h ⊢
  split at h
  · cases h
  · rename_i program hprogram
    rw [hprogram]
    split at h
    · split at h
      · rename_i hlexical herrors
        cases h
        simp only [hlexical, if_true, herrors]
        exact ⟨trivial, List.isEmpty_iff.mp herrors, trivial⟩
      · cases h
    · cases h

/-- A program is found exactly if no stage has an error. -/
theorem analyse_program_iff : (analyse table firstId source).program = some p ↔
    lexErrors source = [] ∧ (parse firstId (tokens source)).program = .ok p ∧ (resolve table p).errors = [] := by
  constructor
  · intro h
    obtain ⟨hparse, herrors, -⟩ := analyse_program h
    refine ⟨?_, hparse, herrors⟩
    unfold analyse at h
    simp only [hparse] at h
    split at h
    · rename_i hlexical
      exact List.map_eq_nil_iff.mp (List.isEmpty_iff.mp hlexical)
    · cases h
  · rintro ⟨hlexical, hparse, herrors⟩
    unfold analyse
    simp only [hlexical, hparse, herrors, List.map_nil, List.isEmpty_nil, if_true]

/-- The walk of the resolver changes no entry of other nodes. -/
theorem resolve_distance? {id : NodeId} (hid : id ∉ Reference.ids (Stmt.referencesAll p)) :
    (resolve table p).table.distance? id = table.distance? id :=
  (Stmt.resolveAll_walks ⟨.none, false⟩ p ⟨[], table, []⟩).frame id hid

/-- **The analysis of a source changes no entry outside its own node ids.** -/
theorem analyse_distance? {id : NodeId}
    (hid : id < firstId ∨ (analyse table firstId source).nextId ≤ id) :
    (analyse table firstId source).table.distance? id = table.distance? id := by
  rw [analyse_nextId] at hid
  have hframe : ∀ program, (parse firstId (tokens source)).program = .ok program →
      (resolve table program).table.distance? id = table.distance? id := by
    intro program hprogram
    refine resolve_distance? fun hmem => ?_
    obtain ⟨hle, hlt⟩ := (parse_spans hprogram).bounds id hmem
    rcases hid with hid | hid
    · exact Nat.lt_irrefl _ (Nat.lt_of_lt_of_le hid hle)
    · exact Nat.lt_irrefl _ (Nat.lt_of_lt_of_le hlt hid)
  unfold analyse
  simp only
  split
  · rfl
  · rename_i program hprogram
    split
    · split <;> exact hframe program hprogram
    · rfl

end Analysis

/-! ## Programs -/

section Interpret

variable {L : Layout} {D : String → Prop} {steps : Nat} {p : Program} {m m' : Machine}

/-- The end of a run at top level. -/
theorem safe_finish (hk : Kept L D m m') (hglobal : m.current = globalScope)
    (result : Except RunError Unit) : Safe L D (fun _ _ => True) (fun _ => m'.finish result) m := by
  have hk' : Kept L D m { m' with current := globalScope, sink := m'.sink.flush } :=
    ⟨⟨hk.ready.heap, hk.ready.table⟩, hglobal.symm, hk.grows, hk.globals⟩
  unfold Safe Machine.finish
  simp only
  split
  · rename_i hr
    split at hr <;> cases hr
    exact ⟨hk', trivial⟩
  · rename_i hr
    split at hr <;> cases hr
    exact ⟨hk', trivial⟩

/-- A program is as safe as its statements. -/
theorem interpret_safe (h : Safe L D (fun _ _ => True) (executeTop steps p) m)
    (hglobal : m.current = globalScope) : Safe L D (fun _ _ => True) (interpret steps p) m := by
  unfold Safe at h ⊢
  unfold interpret
  cases hr : executeTop steps p m with
  | ok a m' =>
      rw [hr] at h
      exact safe_finish h.1 hglobal (.ok ())
  | error halt m' =>
      rw [hr] at h
      cases halt with
      | error e => exact safe_finish h.1 hglobal (.error e)
      | fault f => exact h
      | exhausted => exact h

end Interpret

namespace Session

/-! ## Sources one after another -/

/-- The session after sources run one after another.  A run that did not finish is the last. -/
def after (steps : Nat) (s : Session) : List String → Session
  | [] => s
  | source :: rest =>
      match (s.run steps source).1.ending with
      | .finished _ => (s.run steps source).2.after steps rest
      | _ => (s.run steps source).2

/-- The point at which the program of a source starts. -/
def start (steps : Nat) (s : Session) (source : String) (p : Program) : Point :=
  ⟨steps, .top p, { s.machine with table := (analyse s.machine.table s.nextId source).table }⟩

/-- The points of the runs of sources one after another. -/
inductive Visits (steps : Nat) : Session → List String → Point → Prop where
  | here {s : Session} {source : String} {rest : List String} {p : Program} {Q : Point} :
      (analyse s.machine.table s.nextId source).program = some p →
      (s.start steps source p).Visits Q → Visits steps s (source :: rest) Q
  | later {s : Session} {source : String} {rest : List String} {status : Status} {Q : Point} :
      (s.run steps source).1.ending = .finished status →
      Visits steps (s.run steps source).2 rest Q → Visits steps s (source :: rest) Q

/-! ## Between runs -/

/-- The layout of a session. -/
def layout (strict : Bool) (s : Session) : Layout := ⟨strict, s.machine.table, s.nextId⟩

/-- A session as it is between runs. -/
structure Fits (strict : Bool) (s : Session) : Prop where
  current : s.machine.current = globalScope
  unused : ∀ id, s.nextId ≤ id → s.machine.table.distance? id = none
  heap : HeapFits (s.layout strict) s.machine.heap

variable {strict : Bool} {s : Session} {steps : Nat} {source : String}

/-- The layout after the analysis of a source. -/
def layoutAfter (strict : Bool) (s : Session) (source : String) : Layout :=
  let found := analyse s.machine.table s.nextId source
  ⟨strict, found.table, found.nextId⟩

theorem layout_extends (strict : Bool) (s : Session) (source : String) :
    (s.layout strict).Extends (s.layoutAfter strict source) where
  strict := rfl
  bound := by
    show s.nextId ≤ (analyse s.machine.table s.nextId source).nextId
    rw [analyse_nextId]
    exact le_parse_nextId s.nextId (tokens source)
  table := fun _ hid => analyse_distance? (.inl hid)

/-- The machine is ready for the program of a source. -/
theorem Fits.ready (h : s.Fits strict) (source : String) :
    Ready (s.layoutAfter strict source)
      { s.machine with table := (analyse s.machine.table s.nextId source).table } :=
  ⟨h.heap.extend (layout_extends strict s source), rfl⟩

/-- **The program of a source starts at a point that fits.** -/
theorem Fits.start {p : Program} (h : s.Fits strict) (hsource : strict = true → Guarded source)
    (hfound : (analyse s.machine.table s.nextId source).program = some p) :
    (s.start steps source p).Fits (s.layoutAfter strict source) := by
  obtain ⟨hparse, herrors, htable⟩ := analyse_program hfound
  have hspans := parse_spans hparse
  refine ⟨[], h.ready source, h.current, rfl, ?_⟩
  refine resolve_scoped herrors hspans.nodup ?_ ?_ htable ?_
  · exact fun id hid => h.unused id (hspans.bounds id hid).1
  · intro id hid
    show id < (analyse s.machine.table s.nextId source).nextId
    rw [analyse_nextId]
    exact (hspans.bounds id hid).2
  · exact fun hstrict => ⟨parse_guarded (hsource hstrict) hparse, parse_shaped hparse⟩

/-! ## A run -/

/-- The names that the run of a source may add to the global scope. -/
def Adds (steps : Nat) (s : Session) (source name : String) : Prop :=
  ∃ p, (analyse s.machine.table s.nextId source).program = some p ∧
    (s.start steps source p).Declares name

/-- **What a run does to the session.** -/
theorem Fits.run_kept (h : s.Fits strict) (hsource : strict = true → Guarded source) (steps : Nat) :
    ∃ m', (s.run steps source).2 = ⟨m', (analyse s.machine.table s.nextId source).nextId⟩ ∧
      Kept (s.layoutAfter strict source) (s.Adds steps source)
        { s.machine with table := (analyse s.machine.table s.nextId source).table } m' ∧
      ∀ f, (s.run steps source).1.ending = .fault f →
        (s.layoutAfter strict source).Allows (.fault f) := by
  unfold Session.run
  simp only
  cases hfound : (analyse s.machine.table s.nextId source).program with
  | none => exact ⟨_, rfl, .refl (h.ready source), nofun⟩
  | some p =>
      have hsafe := interpret_safe ((stepsSafe _ steps).top (h.start hsource hfound)) h.current
      simp only
      unfold Safe at hsafe
      cases hrun : interpret steps p
          { s.machine with table := (analyse s.machine.table s.nextId source).table } with
      | ok a m' =>
          rw [hrun] at hsafe
          exact ⟨m', rfl, hsafe.1.mono fun _ hadds => ⟨p, hfound, hadds.2⟩, nofun⟩
      | error halt m' =>
          rw [hrun] at hsafe
          refine ⟨m', rfl, hsafe.1.mono fun _ hadds => ⟨p, hfound, hadds.2⟩, fun f hf => ?_⟩
          cases halt with
          | error e => cases hf
          | exhausted => cases hf
          | fault g =>
              cases hf
              exact hsafe.2

/-- **A run leaves a session that fits.** -/
theorem Fits.run (h : s.Fits strict) (hsource : strict = true → Guarded source) :
    (s.run steps source).2.Fits strict := by
  obtain ⟨m', hsession, hk, -⟩ := h.run_kept hsource steps
  rw [hsession]
  have htable : m'.table = (analyse s.machine.table s.nextId source).table := hk.ready.table
  refine ⟨hk.current.trans h.current, fun id hid => ?_, ?_⟩
  · have hle := (layout_extends strict s source).bound
    show m'.table.distance? id = none
    rw [htable, analyse_distance? (.inr hid)]
    exact h.unused id (Nat.le_trans hle hid)
  · have hheap := hk.ready.heap
    unfold layoutAfter at hheap
    unfold layout
    rw [htable]
    exact hheap

/-- A heap without functions and classes fits every layout. -/
theorem heapFits_empty (L : Layout) (f : NativeFunction) : HeapFits L (Heap.empty.addNative f) where
  root := rfl
  inhabited := Nat.zero_lt_one
  functions := fun _ => ⟨⟨[], rfl, trivial⟩, nofun⟩
  methods := nofun

/-- A new session fits. -/
theorem fits_initial (strict : Bool) (sink : Sink) (clock : Nat → Float) :
    (Session.initial sink clock).Fits strict where
  current := rfl
  unused := fun _ _ => Std.TreeMap.getElem?_emptyc
  heap := (heapFits_empty _ .clock).define globalScope "clock" (.native 0)

/-- **Every point of the runs of sources one after another fits.**  Under a strict layout the sources are
guarded. -/
theorem Fits.visits {sources : List String} {Q : Point} (hvisit : Visits steps s sources Q)
    (h : s.Fits strict) (hsources : ∀ source ∈ sources, strict = true → Guarded source) :
    ∃ L : Layout, L.strict = strict ∧ Q.Fits L := by
  induction hvisit with
  | here hfound hvisit =>
      exact ⟨_, rfl, (h.start (hsources _ List.mem_cons_self) hfound).visits hvisit⟩
  | later _ _ ih =>
      refine ih (h.run (hsources _ List.mem_cons_self)) fun source hmem => ?_
      exact hsources source (List.mem_cons_of_mem _ hmem)

/-- **The faults in which a run may end.** -/
theorem Fits.allows {sources : List String} {outcome : Run} {f : Fault} (h : s.Fits strict)
    (hsources : ∀ source ∈ sources, strict = true → Guarded source)
    (hmem : outcome ∈ s.runAll steps sources) (hfault : outcome.ending = .fault f) :
    ∃ L : Layout, L.strict = strict ∧ L.Allows (.fault f) := by
  induction sources generalizing s with
  | nil => cases hmem
  | cons source rest ih =>
      have hsource := hsources source List.mem_cons_self
      obtain ⟨m', -, -, hallows⟩ := h.run_kept hsource steps
      unfold runAll at hmem
      simp only at hmem
      split at hmem
      · rcases List.mem_cons.mp hmem with rfl | hmem
        · exact ⟨_, rfl, hallows f hfault⟩
        · exact ih (h.run hsource) (fun x hx => hsources x (List.mem_cons_of_mem _ hx)) hmem
      · obtain rfl := List.mem_singleton.mp hmem
        exact ⟨_, rfl, hallows f hfault⟩

end Session

end Scriptlet
