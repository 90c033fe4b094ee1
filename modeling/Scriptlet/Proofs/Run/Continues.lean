import Scriptlet.Proofs.Run.Points
import Scriptlet.Proofs.Run.Regime

/-!
# What every run leaves alone

Whatever a script does, the table of scope distances, the native functions, the readings of the clock and the kind of
sink stay as they are, and the output only grows.

* `Machine.Continues m m'` — the machine `m'` has all this from `m`.

Principal results: `Point.Visits.continues` — every point of a run continues the machine it started with;
`interpret_continues` — so does the end of the run.
-/

set_option autoImplicit false

namespace Scriptlet

/-- The sink takes output like another one, and has the output of that one. -/
structure Sink.Continues (s s' : Sink) : Prop where
  written : ∃ bytes, s'.written = s.written ++ bytes
  limit : s'.limit = s.limit
  flushFails : s'.flushFails = s.flushFails

theorem Sink.Continues.refl (s : Sink) : s.Continues s :=
  ⟨⟨.empty, ByteArray.append_empty.symm⟩, rfl, rfl⟩

theorem Sink.Continues.trans {s s₁ s₂ : Sink} (h : s.Continues s₁) (h' : s₁.Continues s₂) :
    s.Continues s₂ := by
  obtain ⟨b, hb⟩ := h.written
  obtain ⟨b', hb'⟩ := h'.written
  refine ⟨⟨b ++ b', ?_⟩, h'.limit.trans h.limit, h'.flushFails.trans h.flushFails⟩
  rw [hb', hb, ByteArray.append_assoc]

/-- The output since a start is the output up to a later point, and the output since then. -/
theorem Sink.Continues.since {s s₁ s₂ : Sink} (h : s.Continues s₁) (h' : s₁.Continues s₂) :
    s₂.since s.written.size = s₁.since s.written.size ++ s₂.since s₁.written.size := by
  obtain ⟨b, hb⟩ := h.written
  obtain ⟨b', hb'⟩ := h'.written
  have hle : s.written.size ≤ s₁.written.size := by
    rw [hb, ByteArray.size_append]
    omega
  have hle' : s₁.written.size ≤ s₂.written.size := by
    rw [hb', ByteArray.size_append]
    omega
  have hfirst : s₂.written.extract s.written.size s₁.written.size =
      s₁.written.extract s.written.size s₁.written.size := by
    rw [hb', ByteArray.extract_append_size_left]
  unfold Sink.since
  rw [ByteArray.extract_eq_extract_append_extract _ hle hle', hfirst]

/-- The machine has what no run changes from another one. -/
structure Machine.Continues (m m' : Machine) : Prop where
  table : m'.table = m.table
  natives : m'.heap.natives = m.heap.natives
  clock : m'.clock = m.clock
  sink : m.sink.Continues m'.sink

/-- The regime under which a machine continues another one; any value and any scope may be used. -/
def Regime.continuing : Regime := ⟨fun _ => True, fun _ _ => True, fun _ _ => True, Machine.Continues⟩

namespace Machine.Continues

variable {m m₁ m₂ : Machine}

theorem refl (m : Machine) : m.Continues m := ⟨rfl, rfl, rfl, .refl _⟩

theorem trans (h : m.Continues m₁) (h' : m₁.Continues m₂) : m.Continues m₂ :=
  ⟨h'.table.trans h.table, h'.natives.trans h.natives, h'.clock.trans h.clock, h.sink.trans h'.sink⟩

/-- A change of the heap that adds no native function. -/
theorem of_heap {h : Heap} (hh : h.natives = m.heap.natives) : m.Continues { m with heap := h } :=
  ⟨rfl, hh, rfl, .refl _⟩

end Machine.Continues

theorem Regime.continuing_lawful : Regime.continuing.Lawful :=
  Regime.watching_lawful .refl .trans (fun _ _ => ⟨rfl, rfl, rfl, .refl _⟩)
    (fun _ _ => ⟨rfl, rfl, rfl, ⟨_, rfl⟩, rfl, rfl⟩) (fun _ => ⟨rfl, rfl, rfl, .refl _⟩) fun _ _ => .of_heap

/-- The machine continues in the one that an outcome leaves. -/
def Machine.ContinuesIn {α : Type} (m : Machine) : EStateM.Result Halt Machine α → Prop
  | .ok _ m' => m.Continues m'
  | .error _ m' => m.Continues m'

/-- The action lets the machine continue, however it ends. -/
def Exec.Continues {α : Type} (x : Exec α) : Prop := ∀ m : Machine, m.ContinuesIn (x m)

section Tasks

variable {α : Type} {x : Exec α} {m m' : Machine}

theorem Exec.continues_of_keeps {Q : α → Machine → Prop} (h : ∀ m, Regime.continuing.Keeps Q x m) :
    x.Continues := by
  intro m
  have hm := h m
  unfold Regime.Keeps at hm
  cases hr : x m with
  | ok a m' =>
      rw [hr] at hm
      exact hm.1.step
  | error halt m' =>
      rw [hr] at hm
      exact hm.step

theorem Exec.Continues.of_ok {a : α} (h : x.Continues) (hx : x m = .ok a m') : m.Continues m' := by
  have hm := h m
  rwa [hx] at hm

theorem evaluate_continues (steps : Nat) (e : Expr) : (evaluate steps e).Continues :=
  Exec.continues_of_keeps fun _ => (Regime.continuing_lawful.governs steps).eval trivial trivial

theorem evaluateAll_continues (steps : Nat) (es : List Expr) : (evaluateAll steps es).Continues :=
  Exec.continues_of_keeps fun _ => (Regime.continuing_lawful.governs steps).evalAll trivial trivial

theorem execute_continues (steps : Nat) (s : Stmt) : (execute steps s).Continues :=
  Exec.continues_of_keeps fun _ => (Regime.continuing_lawful.governs steps).exec trivial trivial

theorem executeAll_continues (steps : Nat) (ss : List Stmt) : (executeAll steps ss).Continues :=
  Exec.continues_of_keeps fun _ => (Regime.continuing_lawful.governs steps).execAll trivial trivial

theorem executeTop_continues (steps : Nat) (p : Program) : (executeTop steps p).Continues :=
  Exec.continues_of_keeps fun _ => Regime.continuing_lawful.top steps p trivial trivial

theorem Exec.lookUp_continues (id : NodeId) (name : Ident) : (Exec.lookUp id name).Continues :=
  Exec.continues_of_keeps fun _ =>
    Regime.keeps_lookUp Regime.continuing_lawful trivial trivial id name

theorem Exec.inScope_continues {scope : ScopeId} (h : x.Continues) : (Exec.inScope scope x).Continues := by
  intro m
  have hm := h { m with current := scope }
  unfold Exec.inScope
  simp only
  cases hr : x { m with current := scope } with
  | ok a m' =>
      rw [hr] at hm
      exact ⟨hm.table, hm.natives, hm.clock, hm.sink⟩
  | error halt m' =>
      rw [hr] at hm
      exact ⟨hm.table, hm.natives, hm.clock, hm.sink⟩

/-- The end of a run flushes the sink. -/
theorem Machine.finish_continues (h : m.Continues m') (result : Except RunError Unit) :
    m.ContinuesIn (m'.finish result) := by
  have hflush : m.Continues { m' with current := globalScope, sink := m'.sink.flush } :=
    ⟨h.table, h.natives, h.clock, h.sink.written, h.sink.limit, h.sink.flushFails⟩
  unfold Machine.finish
  simp only
  split
  · exact hflush
  · exact hflush

theorem interpret_continues (steps : Nat) (p : Program) : (interpret steps p).Continues := by
  intro m
  have htop := executeTop_continues steps p m
  unfold interpret
  cases hr : executeTop steps p m with
  | ok a m' =>
      rw [hr] at htop
      exact Machine.finish_continues htop (.ok ())
  | error halt m' =>
      rw [hr] at htop
      cases halt with
      | error e => exact Machine.finish_continues htop (.error e)
      | fault f => exact htop
      | exhausted => exact htop

end Tasks

namespace Point

/-- A task finds a machine that continues the one of the task it is part of. -/
theorem Calls.continues {P Q : Point} (h : P.Calls Q) : P.machine.Continues Q.machine := by
  cases h with
  | group | unary | binaryLeft | logicalLeft | ternaryTest | var | this | assignValue | updateOperand | array
    | indexPosition | callee | get | setObject | firstValue | callWith | invoke | expr | print | init | ifTest
    | whileLoop | ret | firstStmt | loopTest | topFirst => exact .refl _
  | binaryRight hl | logicalRight hl | ternaryTrue hl _ | ternaryFalse hl _ | assign hl | updateOld hl
    | indexTarget hl | arguments hl | setValue hl | otherValues hl | ifTrue hl _ | ifFalse hl _
    | loopBody hl _ => exact (evaluate_continues _ _).of_ok hl
  | updateNew hl hold _ =>
      exact ((evaluate_continues _ _).of_ok hl).trans ((Exec.lookUp_continues _ _).of_ok hold)
  | call hf hargs =>
      exact ((evaluate_continues _ _).of_ok hf).trans ((evaluateAll_continues _ _).of_ok hargs)
  | construct hobject _ hbound =>
      cases hobject
      cases hbound
      exact .of_heap rfl
  | body hscope | block hscope =>
      cases hscope
      exact ⟨rfl, rfl, rfl, .refl _⟩
  | readThis hscope hbody _ =>
      cases hscope
      have hrun := (Exec.inScope_continues (executeAll_continues _ _)).of_ok hbody
      exact ⟨hrun.table, hrun.natives, hrun.clock, hrun.sink⟩
  | loopAgain hl _ hbody =>
      exact ((evaluate_continues _ _).of_ok hl).trans ((execute_continues _ _).of_ok hbody)
  | otherStmts hs | topOthers hs => exact (execute_continues _ _).of_ok hs

/-- **Every point of a run continues the machine it started with.** -/
theorem Visits.continues {P Q : Point} (h : P.Visits Q) : P.machine.Continues Q.machine := by
  induction h with
  | refl P => exact .refl _
  | step hcall _ ih => exact hcall.continues.trans ih

end Point

end Scriptlet
