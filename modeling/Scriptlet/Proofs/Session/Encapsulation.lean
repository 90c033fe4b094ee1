import Mathlib
import Scriptlet.Proofs.Run.Confined
import Scriptlet.Proofs.Run.Continues
import Scriptlet.Proofs.Session.Access

/-!
# Encapsulation of calls

A caller's local variables and instances are its own: a call changes only what it can reach from the called value, the
arguments and the global scope.

Principal result: `Session.calls_encapsulated` — at every call of every run, scopes and objects out of its reach stay
as they were.
-/

set_option autoImplicit false

namespace Scriptlet

namespace Session

variable {s : Session} {steps : Nat} {sources : List String} {Q : Point}

/-- A run changes nothing about the native functions. -/
theorem run_natives (steps : Nat) (s : Session) (source : String) :
    (s.run steps source).2.machine.heap.natives = s.machine.heap.natives := by
  unfold Session.run
  simp only
  cases (analyse s.machine.table s.nextId source).program with
  | none => rfl
  | some p =>
      have hrun := interpret_continues steps p
        { s.machine with table := (analyse s.machine.table s.nextId source).table }
      simp only
      cases hr : interpret steps p
          { s.machine with table := (analyse s.machine.table s.nextId source).table } with
      | ok a m =>
          rw [hr] at hrun
          exact hrun.natives
      | error halt m =>
          rw [hr] at hrun
          exact hrun.natives

/-- Every point of the runs of sources has the native functions of the session. -/
theorem Visits.natives (h : Visits steps s sources Q) :
    Q.machine.heap.natives = s.machine.heap.natives := by
  induction h with
  | here _ hvisit => exact hvisit.continues.natives
  | later _ _ ih => rw [ih, run_natives]

/-- **Calls are encapsulated.**  Whenever a value is called in the run of any sources, every scope and every object
that exists before the call and is not reachable from the called value, the arguments or the global scope is after the
call what it was before, whether the call returned or ended early. -/
theorem calls_encapsulated (sink : Sink) (clock : Nat → Float) (steps : Nat) (sources : List String)
    {left : Nat} {m : Machine} {callee : Value} {args : List Value} {line : Nat}
    (hvisit : (Session.initial sink clock).Visits steps sources ⟨left, .call callee args line, m⟩) :
    (∀ i < m.heap.scopes.size, ¬ m.heap.Reaches (callee :: args) (.scope i) →
      ((call left callee args line).leaves m).heap.scope i = m.heap.scope i) ∧
    (∀ i < m.heap.objects.size, ¬ m.heap.Reaches (callee :: args) (.object i) →
      ((call left callee args line).leaves m).heap.object i = m.heap.object i) := by
  have hnatives : m.heap.natives = #[.clock] := hvisit.natives
  have hkeeps := call_keeps_confined hnatives left callee args line
  have hspares : m.Spares m.heap (callee :: args) ((call left callee args line).leaves m) := by
    unfold Regime.Keeps at hkeeps
    unfold Exec.leaves
    cases hr : call left callee args line m with
    | ok v m' =>
        rw [hr] at hkeeps
        exact hkeeps.1.step
    | error halt m' =>
        rw [hr] at hkeeps
        exact hkeeps.step
  exact ⟨fun i hi hout => hspares.scope i hi hout, fun i hi hout => hspares.object i hi hout⟩

/-- A function that assigns to a global name, called from a block that has an instance in a variable. -/
def calling : String := "class A {} function f() { A = null; } { var a = A(); f(); }"

/-- The program of `calling`. -/
def callingTree : Program :=
  [.classDecl ⟨"A", 1⟩ [],
    .function (.mk ⟨"f", 1⟩ [] [.expr (.assign 1 ⟨"A", 1⟩ (.lit .null))]),
    .block [.var ⟨"a", 1⟩ (some (.call (.var 2 ⟨"A", 1⟩) 1 [])), .expr (.call (.var 3 ⟨"f", 1⟩) 1 [])]]

/-- The heap when the block calls the function. -/
def callingHeap : Heap where
  scopes := #[⟨none, [("clock", .native 0), ("A", .classRef 0), ("f", .function 0)]⟩,
    ⟨some 0, [("a", .object 0)]⟩]
  arrays := #[]
  functions := #[⟨.mk ⟨"f", 1⟩ [] [.expr (.assign 1 ⟨"A", 1⟩ (.lit .null))], 0, false⟩]
  classes := #[⟨"A", []⟩]
  objects := #[⟨0, []⟩]
  natives := #[.clock]

/-- The function reaches the global scope, the class and itself, but not the block and not the instance. -/
theorem callingHeap_reaches {c : Cell} (h : callingHeap.Reaches [.function 0] c) :
    c = .scope 0 ∨ c = .cls 0 ∨ c = .function 0 := by
  induction h with
  | global => exact .inl rfl
  | value hmem hcell =>
      cases List.mem_singleton.mp hmem
      cases hcell
      exact .inr (.inr rfl)
  | step _ hr ih =>
      rcases ih with rfl | rfl | rfl
      · cases hr with
        | enclosing he => cases he
        | bound hentry hcell =>
            have hnames : (callingHeap.scope 0).names =
                [("clock", .native 0), ("A", .classRef 0), ("f", .function 0)] := rfl
            rw [hnames] at hentry
            rcases List.mem_cons.mp hentry with rfl | hentry
            · cases hcell
            · rcases List.mem_cons.mp hentry with rfl | hentry
              · cases hcell
                exact .inr (.inl rfl)
              · cases List.mem_singleton.mp hentry
                cases hcell
                exact .inr (.inr rfl)
      · cases hr with
        | method hentry => cases hentry
      · cases hr with
        | closure => exact .inl rfl

/-- The machine in the block, with the given heap. -/
def callingMachine (heap : Heap) : Machine where
  heap := heap
  current := 1
  table := (analyse (Session.initial .unlimited fun _ => 0).machine.table 0 calling).table
  sink := .unlimited
  clock := fun _ => 0
  ticks := 0

/-- The heap when the block starts. -/
def callingHeap₀ : Heap :=
  { callingHeap with
    scopes := #[⟨none, [("clock", .native 0), ("A", .classRef 0), ("f", .function 0)]⟩, ⟨some 0, []⟩]
    objects := #[] }

theorem evaluate_global {steps : Nat} {id : NodeId} {name : Ident} {v : Value} {m : Machine}
    (hid : m.table.distance? id = none) (hv : m.heap.search? globalScope name.name = some v) :
    evaluate (steps + 1) (.var id name) m = .ok v m := by
  unfold evaluate
  simp only [Exec.lookUp, hid, hv]

theorem calling_visits : (Session.initial .unlimited fun _ => 0).Visits 20 [calling]
    ⟨12, .call (.function 0) [] 1, callingMachine callingHeap⟩ := by
  have hfound : (analyse (Session.initial .unlimited fun _ => 0).machine.table 0
      calling).program = some callingTree := by cbv
  have hA : evaluate 13 (.var 2 ⟨"A", 1⟩) (callingMachine callingHeap₀) =
      .ok (.classRef 0) (callingMachine callingHeap₀) :=
    evaluate_global (by cbv) rfl
  have hf : evaluate 12 (.var 3 ⟨"f", 1⟩) (callingMachine callingHeap) =
      .ok (.function 0) (callingMachine callingHeap) :=
    evaluate_global (by cbv) rfl
  have hvar : execute 15 (.var ⟨"a", 1⟩ (some (.call (.var 2 ⟨"A", 1⟩) 1 []))) (callingMachine callingHeap₀) =
      .ok .normal (callingMachine callingHeap) := by
    simp only [execute, evaluate.eq_def 14, bind, EStateM.bind, hA]
    rfl
  refine .here hfound (.step (.topOthers rfl) (.step (.topOthers rfl) (.step .topFirst (.step (.block rfl) ?_))))
  exact .step (.otherStmts hvar) (.step .firstStmt (.step .expr (.step (.call hf rfl) (.refl _))))

/-- The function changes the global scope, but neither the block's scope nor its instance. -/
theorem calls_encapsulated_calling :
    (Session.initial .unlimited fun _ => 0).Visits 20 [calling]
      ⟨12, .call (.function 0) [] 1, callingMachine callingHeap⟩ ∧
    ((call 12 (.function 0) [] 1).leaves (callingMachine callingHeap)).heap.search? globalScope "A" = some .null ∧
    ¬ callingHeap.Reaches [.function 0] (.scope 1) ∧ ¬ callingHeap.Reaches [.function 0] (.object 0) ∧
    ((call 12 (.function 0) [] 1).leaves (callingMachine callingHeap)).heap.scope 1 = callingHeap.scope 1 ∧
    ((call 12 (.function 0) [] 1).leaves (callingMachine callingHeap)).heap.object 0 = callingHeap.object 0 := by
  have hscope : ¬ callingHeap.Reaches [.function 0] (.scope 1) := by
    intro h
    rcases callingHeap_reaches h with h | h | h <;> cases h
  have hobject : ¬ callingHeap.Reaches [.function 0] (.object 0) := by
    intro h
    rcases callingHeap_reaches h with h | h | h <;> cases h
  obtain ⟨hscopes, hobjects⟩ := calls_encapsulated .unlimited (fun _ => 0) 20 [calling] calling_visits
  exact ⟨calling_visits, by cbv, hscope, hobject, hscopes 1 (by decide) hscope, hobjects 0 (by decide) hobject⟩

end Session

end Scriptlet
