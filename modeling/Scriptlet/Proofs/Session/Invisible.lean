import Mathlib
import Scriptlet.Proofs.NodeIds.Shift
import Scriptlet.Proofs.Run.Renamed
import Scriptlet.Proofs.Session.Layouts

/-!
# Failed runs leave no trace

A source with a static error is not executed, but it uses up node ids and may leave distances in the table.
Later runs are the same as without it, apart from the names of node ids.

* `Session.Reachable` — the sessions that runs of sources lead to.
* `skipIds n k` — the renaming that skips `k` ids from `n` on.
* `Session.Twin n k s t` — the session `t` is `s` after a detour that used up `k` ids from `n` on.

Principal results: `Session.Twin.run` — twins run alike and stay twins; `failed_run_invisible` — a failed source
changes nothing about the sources after it.
-/

set_option autoImplicit false

namespace Scriptlet

/-! ## Skipped ids -/

/-- The renaming that skips `k` ids from `n` on. -/
def skipIds (n k id : Nat) : Nat := if id < n then id else id + k

theorem skipIds_of_lt {n k id : Nat} (h : id < n) : skipIds n k id = id := if_pos h

theorem skipIds_of_le {n k id : Nat} (h : n ≤ id) : skipIds n k id = shiftId k id :=
  if_neg (Nat.not_lt.mpr h)

theorem skipIds_injective (n k a b : Nat) (h : skipIds n k a = skipIds n k b) : a = b := by
  unfold skipIds at h
  split at h <;> split at h <;> omega

/-- Parsing from a counter that is further on, past the skipped ids. -/
theorem parse_skipIds {n k firstId : Nat} {tokens : List Token} (hle : n ≤ firstId) :
    parse (firstId + k) tokens = ⟨(parse firstId tokens).program.map (Stmt.mapIdsAll (skipIds n k)),
      (parse firstId tokens).nextId + k⟩ := by
  rw [parse_shift]
  congr 1
  cases hp : (parse firstId tokens).program with
  | error errors => rfl
  | ok p =>
      refine congrArg Except.ok (Stmt.mapIdsAll_congr p fun r hr => ?_)
      have hid := ((parse_spans hp).bounds r.id (Reference.mem_ids hr)).1
      exact (skipIds_of_le (Nat.le_trans hle hid)).symm

/-- **The analysis of a source past skipped ids.** -/
theorem analyse_skipIds {n k firstId : Nat} {T T' : DistanceTable} (hle : n ≤ firstId)
    (hT : DistanceTable.Renames (skipIds n k) T T') (source : String) :
    (analyse T' (firstId + k) source).diagnostics = (analyse T firstId source).diagnostics ∧
    (analyse T' (firstId + k) source).program =
      (analyse T firstId source).program.map (Stmt.mapIdsAll (skipIds n k)) ∧
    (analyse T' (firstId + k) source).nextId = (analyse T firstId source).nextId + k ∧
    DistanceTable.Renames (skipIds n k) (analyse T firstId source).table
      (analyse T' (firstId + k) source).table := by
  unfold analyse
  simp only [parse_skipIds hle]
  cases (parse firstId (tokens source)).program with
  | error errors => exact ⟨rfl, rfl, rfl, hT⟩
  | ok p =>
      obtain ⟨herrors, htable⟩ := resolve_mapIds (skipIds_injective n k) hT p
      simp only [Except.map, herrors]
      split
      · split
        · exact ⟨rfl, rfl, rfl, htable⟩
        · exact ⟨rfl, rfl, rfl, htable⟩
      · exact ⟨rfl, rfl, rfl, hT⟩

/-! ## Fixed heaps -/

theorem Function.mapIds_of_fixed {f : NodeId → NodeId} {fn : Function}
    (h : ∀ r ∈ fn.decl.references, f r.id = r.id) : fn.mapIds f = fn := by
  unfold Function.mapIds
  rw [FunctionDecl.mapIds_of_fixed h]

section Fixed

variable {L : Layout} {h : Heap}

theorem HeapFits.function_of_mem (hh : HeapFits L h) {fn : Function} (hfn : fn ∈ h.functions) :
    FunctionFits L h fn := by
  obtain ⟨i, hi, rfl⟩ := Array.mem_iff_getElem.mp hfn
  have hfits := hh.functions i
  rwa [Heap.function, Array.getD_eq_getD_getElem?, Array.getElem?_eq_getElem hi] at hfits

theorem HeapFits.method_of_mem (hh : HeapFits L h) {c : Class} (hc : c ∈ h.classes)
    {entry : String × Function} (hentry : entry ∈ c.methods) : MethodFits L h entry.2 := by
  obtain ⟨i, hi, rfl⟩ := Array.mem_iff_getElem.mp hc
  have hcls : h.cls i = h.classes[i] := by
    rw [Heap.cls, Array.getD_eq_getD_getElem?, Array.getElem?_eq_getElem hi]
    rfl
  exact hh.methods i entry (hcls ▸ hentry)

/-- **The ids of a heap that fits a layout are below its bound, so renaming later ids does not change it.** -/
theorem HeapFits.mapIds_of_fixed (hh : HeapFits L h) {f : NodeId → NodeId} (hf : ∀ id, id < L.bound → f id = id) :
    h.mapIds f = h := by
  have hfunction : ∀ fn ∈ h.functions, fn.mapIds f = fn := by
    intro fn hfn
    obtain ⟨⟨Γ, -, hscoped⟩, -⟩ := hh.function_of_mem hfn
    exact Function.mapIds_of_fixed fun r hr => hf r.id (hscoped.bounded r hr)
  have hclass : ∀ c ∈ h.classes, c.mapIds f = c := by
    intro c hc
    have hmethods : c.methods.map (fun entry => (entry.1, entry.2.mapIds f)) = c.methods.map id := by
      refine List.map_congr_left fun entry hentry => ?_
      obtain ⟨Γ, -, hscoped⟩ := hh.method_of_mem hc hentry
      rw [Function.mapIds_of_fixed fun r hr => hf r.id (hscoped.bounded r hr)]
      rfl
    rw [Class.mapIds, hmethods, List.map_id]
  unfold Heap.mapIds
  rw [Array.map_congr_left (g := id) hfunction, Array.map_congr_left (g := id) hclass, Array.map_id,
    Array.map_id]

end Fixed

/-! ## Twins -/

namespace Session

/-- The session `t` is `s`, but for `k` ids that it skipped from `n` on. -/
structure Twin (n k : Nat) (s t : Session) : Prop where
  le : n ≤ s.nextId
  renamed : ∃ T', t = ⟨s.machine.rename (skipIds n k) T', s.nextId + k⟩ ∧
    DistanceTable.Renames (skipIds n k) s.machine.table T'

section Twin

variable {n k : Nat} {s t : Session}

/-- **Twins run alike and stay twins.** -/
theorem Twin.run (h : Twin n k s t) (steps : Nat) (source : String) :
    (t.run steps source).1 = (s.run steps source).1 ∧
      Twin n k (s.run steps source).2 (t.run steps source).2 := by
  obtain ⟨hle, T', rfl, hT⟩ := h
  obtain ⟨hdiagnostics, hprogram, hnext, htable⟩ := analyse_skipIds hle hT source
  have hle' : n ≤ (analyse s.machine.table s.nextId source).nextId := by
    rw [analyse_nextId]
    exact Nat.le_trans hle (le_parse_nextId s.nextId (tokens source))
  unfold Session.run
  simp only [Machine.rename, hdiagnostics, hprogram, hnext]
  cases (analyse s.machine.table s.nextId source).program with
  | none => exact ⟨rfl, hle', _, rfl, htable⟩
  | some p =>
      have hrun := interpret_mapIds ⟨skipIds n k, _, _, htable⟩ steps p
        { s.machine with table := (analyse s.machine.table s.nextId source).table } rfl
      simp only [IdRenaming.machine, Machine.rename] at hrun
      simp only [Option.map]
      cases hr : interpret steps p
          { s.machine with table := (analyse s.machine.table s.nextId source).table } with
      | ok a m =>
          rw [hr] at hrun
          simp only [hrun.2]
          exact ⟨trivial, hle', _, rfl, hrun.1 ▸ htable⟩
      | error halt m =>
          rw [hr] at hrun
          simp only [hrun.2]
          exact ⟨trivial, hle', _, rfl, hrun.1 ▸ htable⟩

/-- Twins give the same outcomes. -/
theorem Twin.runAll (h : Twin n k s t) (steps : Nat) (sources : List String) :
    t.runAll steps sources = s.runAll steps sources := by
  induction sources generalizing s t with
  | nil => rfl
  | cons source rest ih =>
      obtain ⟨hrun, htwin⟩ := h.run steps source
      unfold Session.runAll
      simp only [hrun, ih htwin]

end Twin

/-- The sessions that runs of sources lead to. -/
inductive Reachable : Session → Prop where
  | initial (sink : Sink) (clock : Nat → Float) : Reachable (Session.initial sink clock)
  | run {s : Session} (steps : Nat) (source : String) : Reachable s → Reachable (s.run steps source).2

theorem Reachable.fits {s : Session} (h : s.Reachable) : s.Fits false := by
  induction h with
  | initial sink clock => exact fits_initial false sink clock
  | run steps source _ ih => exact ih.run nofun

/-- A source with a static error has no program to run. -/
theorem program_eq_none {table : DistanceTable} {firstId : NodeId} {source : String}
    (h : (analyse table firstId source).diagnostics ≠ []) :
    (analyse table firstId source).program = none := by
  unfold analyse at *
  simp only at *
  split
  · rfl
  · rename_i program hprogram
    simp only [hprogram] at h
    split
    · rename_i hlexical
      simp only [hlexical, if_true] at h
      split
      · rename_i herrors
        simp [herrors] at h
      · rfl
    · rfl

/-- The analysis of a source skips its own ids, and says nothing about those after them. -/
theorem Fits.renames_analyse {s : Session} (h : s.Fits false) (source : String) :
    DistanceTable.Renames (skipIds s.nextId ((analyse s.machine.table s.nextId source).nextId - s.nextId))
      s.machine.table (analyse s.machine.table s.nextId source).table := by
  have hle : s.nextId ≤ (analyse s.machine.table s.nextId source).nextId :=
    (layout_extends false s source).bound
  intro id
  by_cases hid : id < s.nextId
  · rw [skipIds_of_lt hid, analyse_distance? (.inl hid)]
  · have hge := Nat.le_of_not_lt hid
    have hskip : (analyse s.machine.table s.nextId source).nextId ≤
        shiftId ((analyse s.machine.table s.nextId source).nextId - s.nextId) id :=
      calc (analyse s.machine.table s.nextId source).nextId
        _ = s.nextId + ((analyse s.machine.table s.nextId source).nextId - s.nextId) :=
          (Nat.add_sub_cancel' hle).symm
        _ ≤ id + ((analyse s.machine.table s.nextId source).nextId - s.nextId) :=
          Nat.add_le_add_right hge _
    rw [skipIds_of_le hge, analyse_distance? (.inr hskip), h.unused id hge]
    exact h.unused _ (Nat.le_trans hle hskip)

/-- A session and the same session after a source with a static error are twins. -/
theorem Fits.twin {s : Session} (h : s.Fits false) {bad : String}
    (hbad : (analyse s.machine.table s.nextId bad).diagnostics ≠ []) (steps : Nat) :
    ∃ n k, Twin n k s (s.run steps bad).2 := by
  have hle : s.nextId ≤ (analyse s.machine.table s.nextId bad).nextId :=
    (layout_extends false s bad).bound
  have hheap : ∀ k, s.machine.heap.mapIds (skipIds s.nextId k) = s.machine.heap := fun k =>
    h.heap.mapIds_of_fixed fun id hid => skipIds_of_lt hid
  refine ⟨s.nextId, (analyse s.machine.table s.nextId bad).nextId - s.nextId, ?_⟩
  unfold Session.run
  simp only [program_eq_none hbad]
  refine ⟨Nat.le_refl _, (analyse s.machine.table s.nextId bad).table, ?_, h.renames_analyse bad⟩
  rw [Nat.add_sub_cancel' hle, Machine.rename, hheap]

/-- **A failed static run is invisible.**  In every reachable session a source with a lexical, parse or resolve
error has no output and reports its errors, and the sources after it have the same output, reports and endings as
without it, although it may use up node ids and leave entries in the table. -/
theorem failed_run_invisible {s : Session} (hs : s.Reachable) {bad : String}
    (hbad : (analyse s.machine.table s.nextId bad).diagnostics ≠ []) (steps : Nat)
    (later : List String) :
    s.runAll steps (bad :: later) =
      ⟨.empty, (analyse s.machine.table s.nextId bad).diagnostics, .finished ⟨true, false⟩⟩ ::
        s.runAll steps later := by
  obtain ⟨n, k, htwin⟩ := hs.fits.twin hbad steps
  have hrun : (s.run steps bad).1 =
      ⟨.empty, (analyse s.machine.table s.nextId bad).diagnostics, .finished ⟨true, false⟩⟩ := by
    unfold Session.run
    simp only [program_eq_none hbad]
  rw [Session.runAll]
  simp only [hrun, htwin.runAll]

/-- A session with a function that reads its parameter. -/
def echoSession : Session := ((Session.initial .unlimited fun _ => 0).run 8 "function f(x) { return x; }").2

/-- A source that declares a local variable twice, after reading it. -/
def redeclaring : String := "{ var a; a; var a; }"

/-- The failed source leaves an entry in the table, yet a call of the function runs as without it. -/
theorem failed_run_invisible_redeclared :
    echoSession.Reachable ∧
    (analyse echoSession.machine.table echoSession.nextId redeclaring).diagnostics ≠ [] ∧
    (echoSession.run 8 redeclaring).2.machine.table.distance? echoSession.nextId = some 0 ∧
    echoSession.runAll 8 [redeclaring, "f(null);"] =
      ⟨.empty, (analyse echoSession.machine.table echoSession.nextId redeclaring).diagnostics,
        .finished ⟨true, false⟩⟩ :: echoSession.runAll 8 ["f(null);"] := by
  have hreachable : echoSession.Reachable := .run _ _ (.initial _ _)
  have hbad : (analyse echoSession.machine.table echoSession.nextId redeclaring).diagnostics ≠ [] := by
    intro h
    cbv at h
    cases h
  exact ⟨hreachable, hbad, by cbv, failed_run_invisible hreachable hbad 8 ["f(null);"]⟩

end Session

end Scriptlet
