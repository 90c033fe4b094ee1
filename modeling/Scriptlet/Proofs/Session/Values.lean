import Mathlib
import Scriptlet.Proofs.Heap.Stability
import Scriptlet.Proofs.Run.Lasting
import Scriptlet.Proofs.Session.Invisible
import Scriptlet.Proofs.Session.Receivers
import Scriptlet.Proofs.Session.Reports

/-!
# Values never change

A value that a script has hold of is printed and compared in the same way for the rest of the session.

* `Machine.Reachable m` — the machine is a state of some session: between programs, or where a task starts or ends while
  a program runs.
* `Machine.Precedes m m'` — the state `m'` comes after `m`, in the same run or in a later one.
* `Heap.SameValues h h'` — the values of `h` are printed and compared in `h'` as they are in `h`.
* `Exec.KeepsHeap x m` — however the action ends, everything in the heap lasts, and the heap is ordered.

Principal results: `Machine.Reachable.sound` — the heap of a reachable state is ordered; `Machine.Precedes.lasts` —
everything in it lasts; `Session.Reachable.machine`, `Session.Visits.reachable`, `Session.Visits.precedes` — the runs of
sources only come to such states; `Machine.values_never_change`.
-/

set_option autoImplicit false

namespace Scriptlet

open Point

/-! ## States -/

/-- Whether a task is given by its text alone; other tasks are given values. -/
def Task.isText : Task → Bool
  | .eval _ | .evalAll _ | .exec _ | .execAll _ | .loop _ _ | .top _ => true
  | .lookUp _ _ | .assign _ _ _ | .call _ _ _ | .callWith _ _ _ | .invoke _ _ | .readThis _ => false

/-- The states that scripts lead to, whatever is evaluated, executed or interpreted, and with whatever distances. -/
inductive Machine.Reachable : Machine → Prop where
  | initial (sink : Sink) (clock : Nat → Float) : Reachable (Machine.initial sink clock)
  /-- Distances are filed for what comes next. -/
  | file {m : Machine} (table : DistanceTable) : Reachable m → Reachable { m with table := table }
  /-- A task that a given one is made of starts. -/
  | starts {P Q : Point} : Reachable P.machine → P.task.isText = true → P.Visits Q → Reachable Q.machine
  /-- Such a task ends, well or not. -/
  | ends {P Q : Point} : Reachable P.machine → P.task.isText = true → P.Visits Q → Reachable Q.leaves
  /-- A program is run to its end. -/
  | interpret {m : Machine} (steps : Nat) (p : Program) : Reachable m → Reachable ((interpret steps p).leaves m)

/-- The order of states in time. -/
inductive Machine.Precedes : Machine → Machine → Prop where
  | refl (m : Machine) : Precedes m m
  | trans {m m₁ m₂ : Machine} : Precedes m m₁ → Precedes m₁ m₂ → Precedes m m₂
  | file (m : Machine) (table : DistanceTable) : Precedes m { m with table := table }
  | switch (m : Machine) (i : ScopeId) : Precedes m { m with current := i }
  /-- A task ends after it starts. -/
  | task (P : Point) : Precedes P.machine P.leaves
  /-- The parts of a task start after the task. -/
  | part {P Q : Point} : P.Calls Q → Precedes P.machine Q.machine
  /-- The task ends after its parts. -/
  | rest {P Q : Point} : P.Calls Q → Precedes Q.leaves P.leaves
  /-- The sink is flushed after the statements of a program. -/
  | finish (steps : Nat) (p : Program) (m : Machine) :
      Precedes ((executeTop steps p).leaves m) ((interpret steps p).leaves m)

namespace Machine

variable {m m' : Machine}

/-- A program ends in the global scope, or where its statements did. -/
theorem current_interpret (steps : Nat) (p : Program) (m : Machine) :
    ((interpret steps p).leaves m).current = globalScope ∨
      ((interpret steps p).leaves m).current = ((executeTop steps p).leaves m).current := by
  have hfinish : ∀ (m' : Machine) result, (Exec.leaves (fun _ => m'.finish result) m).current = globalScope := by
    intro m' result
    unfold Exec.leaves Machine.finish
    simp only
    split <;> rename_i hr <;> split at hr <;> cases hr <;> rfl
  cases hrun : executeTop steps p m with
  | ok a m' =>
      refine .inl ((hfinish m' (.ok ())).symm ▸ ?_)
      simp only [Exec.leaves, interpret, hrun]
  | error halt m' =>
      cases halt with
      | error e =>
          refine .inl ((hfinish m' (.error e)).symm ▸ ?_)
          simp only [Exec.leaves, interpret, hrun]
      | fault f | exhausted => exact .inr (by simp only [Exec.leaves, interpret, hrun])

/-- A task that is given by its text is sound on a sound machine. -/
theorem Sound.point {P : Point} (hm : P.machine.Sound) (hcurrent : P.machine.heap.Has (.scope P.machine.current))
    (htext : P.task.isText = true) : P.Sound := by
  refine ⟨hm, hcurrent, ?_⟩
  cases htask : P.task with
  | eval | evalAll | exec | execAll | loop | top => trivial
  | lookUp | assign | call | callWith | invoke | readThis =>
      rw [htask] at htext
      cases htext

theorem sound_initial (sink : Sink) (clock : Nat → Float) : (Machine.initial sink clock).Sound := by
  refine .define globalScope "clock" fun c hc => ?_
  cases hc

/-- **Reachable states are sound.** -/
theorem Reachable.sound (hm : m.Reachable) : m.Sound ∧ m.heap.Has (.scope m.current) := by
  induction hm with
  | initial sink clock =>
      have hsound := sound_initial sink clock
      exact ⟨hsound, hsound.ordered.global⟩
  | file table _ ih => exact ih
  | starts _ htext hvisit ih =>
      have hQ := (ih.1.point ih.2 htext).visits hvisit
      exact ⟨hQ.machine, hQ.current⟩
  | ends _ htext hvisit ih =>
      have hQ := (ih.1.point ih.2 htext).visits hvisit
      exact ⟨hQ.moves.inv, hQ.moves.scope Regime.sound_lawful hQ.current⟩
  | @interpret m steps p _ ih =>
      have hP : Point.Sound ⟨steps, .top p, m⟩ := ⟨ih.1, ih.2, trivial⟩
      have hk : Regime.sound.Moves m ((executeTop steps p).leaves m) := hP.moves
      have hheap := Session.heap_interpret steps p m
      have hsound : ((Scriptlet.interpret steps p).leaves m).Sound := by
        rw [Sound, hheap]
        exact hk.inv
      refine ⟨hsound, ?_⟩
      rcases current_interpret steps p m with hglobal | hthere
      · rw [hglobal]
        exact hsound.ordered.global
      · rw [hthere, hheap]
        exact hk.scope Regime.sound_lawful ih.2

/-- **Everything lasts from one state to every later one.** -/
theorem Precedes.lasts (h : m.Precedes m') : m.heap.Lasts m'.heap := by
  induction h with
  | refl => exact .refl _
  | trans _ _ ih ih' => exact ih.trans ih'
  | file | switch => exact .refl _
  | task P => exact P.lasts
  | part hcall => exact hcall.lasts
  | rest hcall => exact hcall.lasts_rest
  | finish steps p m =>
      rw [Session.heap_interpret]
      exact .refl _

end Machine

/-- The points of a run come after its start and end before its end. -/
theorem Point.Visits.precedes {P Q : Point} (h : P.Visits Q) :
    P.machine.Precedes Q.machine ∧ Q.leaves.Precedes P.leaves := by
  induction h with
  | refl P => exact ⟨.refl _, .refl _⟩
  | step hcall _ ih => exact ⟨(Machine.Precedes.part hcall).trans ih.1, ih.2.trans (.rest hcall)⟩

/-! ## Sessions -/

namespace Session

variable {s : Session} {steps : Nat} {source : String} {sources : List String} {Q : Point}

theorem machine_run_of_none (hfound : (analyse s.machine.table s.nextId source).program = none) :
    (s.run steps source).2.machine =
      { s.machine with table := (analyse s.machine.table s.nextId source).table } := by
  rw [run_of_none steps hfound]
  rfl

/-- A run leaves the machine that its program leaves. -/
theorem machine_run {p : Program} (hfound : (analyse s.machine.table s.nextId source).program = some p) :
    (s.run steps source).2.machine = (interpret steps p).leaves (s.start steps source p).machine := by
  rw [run_of_some steps hfound]
  show resultMachine (interpret steps p (s.start steps source p).machine) = _
  unfold Exec.leaves
  cases interpret steps p (s.start steps source p).machine <;> rfl

theorem reachable_run (hs : s.machine.Reachable) (steps : Nat) (source : String) :
    (s.run steps source).2.machine.Reachable := by
  cases hfound : (analyse s.machine.table s.nextId source).program with
  | none =>
      rw [machine_run_of_none hfound]
      exact .file _ hs
  | some p =>
      rw [machine_run hfound]
      exact .interpret steps p (.file _ hs)

/-- **Between runs, sessions are in reachable states.** -/
theorem Reachable.machine (hs : s.Reachable) : s.machine.Reachable := by
  induction hs with
  | initial sink clock => exact .initial sink clock
  | run steps source _ ih => exact reachable_run ih steps source

/-- The start of a program comes after what was there before the run, and its end before the end of the run. -/
theorem precedes_start (steps : Nat) {p : Program}
    (hfound : (analyse s.machine.table s.nextId source).program = some p) :
    s.machine.Precedes (s.start steps source p).machine ∧
      (s.start steps source p).leaves.Precedes (s.run steps source).2.machine := by
  rw [machine_run hfound]
  exact ⟨.file _ _, .finish steps p _⟩

theorem precedes_run (s : Session) (steps : Nat) (source : String) :
    s.machine.Precedes (s.run steps source).2.machine := by
  cases hfound : (analyse s.machine.table s.nextId source).program with
  | none =>
      rw [machine_run_of_none hfound]
      exact .file _ _
  | some p =>
      obtain ⟨hbefore, hafter⟩ := precedes_start steps hfound
      exact (hbefore.trans (.task _)).trans hafter

theorem precedes_after (s : Session) (steps : Nat) (sources : List String) :
    s.machine.Precedes (s.after steps sources).machine := by
  induction sources generalizing s with
  | nil => exact .refl _
  | cons source rest ih =>
      unfold Session.after
      split
      · exact (precedes_run s steps source).trans (ih _)
      · exact precedes_run s steps source

/-- **Where a task of a run starts or ends, the state is reachable.** -/
theorem Visits.reachable (hvisit : Visits steps s sources Q) (hs : s.machine.Reachable) :
    Q.machine.Reachable ∧ Q.leaves.Reachable := by
  induction hvisit with
  | @here s source _ p _ _ hvisit =>
      have hstart : (s.start steps source p).machine.Reachable := .file _ hs
      exact ⟨.starts hstart rfl hvisit, .ends hstart rfl hvisit⟩
  | later _ _ ih => exact ih (reachable_run hs _ _)

/-- **Such a state comes before the end of all runs.** -/
theorem Visits.precedes (hvisit : Visits steps s sources Q) :
    s.machine.Precedes Q.machine ∧ Q.leaves.Precedes (s.after steps sources).machine := by
  induction hvisit with
  | @here s source rest p Q hfound hvisit =>
      obtain ⟨hbefore, hafter⟩ := precedes_start steps hfound
      obtain ⟨hstart, hend⟩ := hvisit.precedes
      refine ⟨hbefore.trans hstart, (hend.trans hafter).trans ?_⟩
      unfold Session.after
      split
      · exact precedes_after _ steps rest
      · exact .refl _
  | @later s source rest status Q hending _ ih =>
      unfold Session.after
      rw [hending]
      exact ⟨(precedes_run s steps source).trans ih.1, ih.2⟩

end Session

/-! ## Values -/

/-- The values of a heap are printed and compared in another one as they are in this one, and both come to an end. -/
structure Heap.SameValues (h h' : Heap) : Prop where
  text : ∀ v, h.Holds v → h'.text v = h.text v
  prints : ∀ v t, h.Holds v → (h'.Prints v t ↔ t = h.text v)
  equal : ∀ a b, h.Holds a → h.Holds b → h'.equal a b = h.equal a b
  compares : ∀ a b r, h.Holds a → h.Holds b → (h'.Compares a b r ↔ r = h.equal a b)

theorem Heap.Ordered.sameValues {h h' : Heap} (hh : h.Ordered) (g : h.Lasts h') : h.SameValues h' where
  text := fun _ hv => hh.text_lasts g hv
  prints := fun _ _ hv => hh.prints_iff g hv
  equal := fun _ _ ha hb => hh.equal_lasts g ha hb
  compares := fun _ _ _ ha hb => hh.compares_iff g ha hb

/-- What an action does to the heap of a machine, however it ends. -/
structure Exec.KeepsHeap {α : Type} (x : Exec α) (m : Machine) : Prop where
  lasts : m.heap.Lasts (x.leaves m).heap
  ordered : (x.leaves m).heap.Ordered
  /-- The elements of a new array are there before the array. -/
  added : ∀ i, ¬ m.heap.Has (.array i) → (x.leaves m).heap.Has (.array i) → m.heap.Added (x.leaves m).heap i

theorem Exec.keepsHeap_of_evolves {α : Type} {x : Exec α} {m : Machine} (hm : m.Sound)
    (e : m.heap.Evolves (x.leaves m).heap) : x.KeepsHeap m :=
  ⟨e.lasts, e.ordered hm.ordered, fun _ hold hnew => e.added hold hnew⟩

namespace Machine

/-- **Values never change.**  In a state of a session, whatever is evaluated, executed or interpreted, everything in the
heap lasts and the heap stays ordered, also after an error.  In every later state the values of the heap are printed and
compared as they are now, in finitely many steps.  Sessions only come to such states. -/
theorem values_never_change :
    (∀ m : Machine, m.Reachable →
      m.heap.Ordered ∧
      (∀ i, m.heap.Has (.array i) → (Heap.empty.addNative .clock).Added m.heap i) ∧
      (∀ steps e, (evaluate steps e).KeepsHeap m ∧ ∀ v m', evaluate steps e m = .ok v m' → m'.heap.Holds v) ∧
      (∀ steps s, (execute steps s).KeepsHeap m ∧
        ∀ v m', execute steps s m = .ok (.returned v) m' → m'.heap.Holds v) ∧
      (∀ steps p, (Scriptlet.interpret steps p).KeepsHeap m) ∧
      ∀ m', m.Precedes m' → m.heap.Lasts m'.heap ∧ m.heap.SameValues m'.heap) ∧
    ∀ s : Session, s.Reachable → s.machine.Reachable ∧ ∀ steps sources,
      s.machine.Precedes (s.after steps sources).machine ∧
      ∀ Q, Session.Visits steps s sources Q → Q.machine.Reachable ∧ Q.leaves.Reachable ∧
        s.machine.Precedes Q.machine ∧ Q.leaves.Precedes (s.after steps sources).machine := by
  refine ⟨fun m hm => ?_, fun s hs => ⟨hs.machine, fun steps sources => ?_⟩⟩
  · obtain ⟨hsound, hcurrent⟩ := hm.sound
    have governs := Regime.sound_lawful.governs
    have hevaluate : ∀ steps e, Regime.sound.Keeps _ (evaluate steps e) m := fun steps e =>
      (governs steps).eval hsound hcurrent
    have hexecute : ∀ steps s, Regime.sound.Keeps _ (execute steps s) m := fun steps s =>
      (governs steps).exec hsound hcurrent
    refine ⟨hsound.ordered, hsound.added, fun steps e => ⟨?_, fun v m' hrun => ?_⟩,
      fun steps s => ⟨?_, fun v m' hrun => ?_⟩, fun steps p => ?_,
      fun m' hlater => ⟨hlater.lasts, hsound.ordered.sameValues hlater.lasts⟩⟩
    · exact Exec.keepsHeap_of_evolves hsound (hevaluate steps e).moves.step
    · exact ((hevaluate steps e).of_ok hrun).2
    · exact Exec.keepsHeap_of_evolves hsound (hexecute steps s).moves.step
    · exact ((hexecute steps s).of_ok hrun).2
    · have hk := (Regime.sound_lawful.top steps p hsound hcurrent).moves
      refine Exec.keepsHeap_of_evolves hsound ?_
      rw [Session.heap_interpret]
      exact hk.step
  · refine ⟨Session.precedes_after s steps sources, fun Q hvisit => ?_⟩
    obtain ⟨hstart, hend⟩ := hvisit.reachable hs.machine
    exact ⟨hstart, hend, hvisit.precedes⟩

/-- Two arrays with the same elements, one of them an array. -/
def nestedSession : Session :=
  ((Session.initial .unlimited fun _ => 0).run 20
    "var a = [[null, \"x\"], true]; var b = [[null, \"x\"], true];").2

/-- New values for both names, and then an error. -/
def overwriting : String := "a = [b, a]; b = null; a.c = b;"

/-- Neither array changes when its name gets another value, nor by the error at the end. -/
theorem values_never_change_nested :
    nestedSession.Reachable ∧ nestedSession.machine.heap.Holds (.array 1) ∧
      nestedSession.machine.heap.Holds (.array 3) ∧
      (nestedSession.run 20 overwriting).1.ending = .finished ⟨false, true⟩ ∧
      (nestedSession.after 20 [overwriting]).machine.heap.text (.array 1) = "[[null, x], true]" ∧
      (nestedSession.after 20 [overwriting]).machine.heap.Prints (.array 1) "[[null, x], true]" ∧
      (nestedSession.after 20 [overwriting]).machine.heap.Compares (.array 1) (.array 3) true := by
  have hreachable : nestedSession.Reachable := .run 20 _ (.initial _ _)
  have hsize : nestedSession.machine.heap.arrays.size = 4 := by cbv
  have hheld : ∀ i < 4, nestedSession.machine.heap.Holds (.array i) := by
    intro i hi c hc
    cases hc
    exact Nat.lt_of_lt_of_eq hi hsize.symm
  have htext : nestedSession.machine.heap.text (.array 1) = "[[null, x], true]" := by cbv
  have hequal : nestedSession.machine.heap.equal (.array 1) (.array 3) = true := by cbv
  obtain ⟨hvalues, hsessions⟩ := values_never_change
  obtain ⟨hstate, hruns⟩ := hsessions nestedSession hreachable
  obtain ⟨hlater, -⟩ := hruns 20 [overwriting]
  obtain ⟨-, -, -, -, -, hstays⟩ := hvalues _ hstate
  obtain ⟨-, hsame⟩ := hstays _ hlater
  have hone := hheld 1 (by decide)
  have hthree := hheld 3 (by decide)
  refine ⟨hreachable, hone, hthree, by cbv, (hsame.text _ hone).trans htext, ?_, ?_⟩
  · exact (hsame.prints _ _ hone).mpr htext.symm
  · exact (hsame.compares _ _ _ hone hthree).mpr hequal.symm

end Machine

end Scriptlet
