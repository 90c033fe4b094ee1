import Mathlib
import Scriptlet.Proofs.Run.Continues
import Scriptlet.Proofs.Session.Access

/-!
# Scopes are restored

Blocks and calls run in scopes of their own.  Whatever happens inside them, the machine is handed back in the scope in
which it was found.

* `Exec.Ends x m outcome m'` — the action `x` on `m` ends with a result or with an error of the run, and leaves `m'`.  A
  run that breaks a promise about scopes or uses up its steps ends in neither way.
* `Exec.Restores x` — on every machine, however the action ends, the current scope afterwards is the one before.

Principal result: `scope_restored` — all tasks of the evaluator restore the current scope, and so do the statements of
a program; there the machine is in the scope to which the end of a program returns it.
-/

set_option autoImplicit false

namespace Scriptlet

/-- How an action ends: with a result, or with an error of the script or of the sink. -/
inductive Exec.Ends {α : Type} (x : Exec α) (m : Machine) : Except RunError α → Machine → Prop
  | ok {a : α} {m' : Machine} : x m = .ok a m' → Ends x m (.ok a) m'
  | error {e : RunError} {m' : Machine} : x m = .error (.error e) m' → Ends x m (.error e) m'

/-- However the action ends, the machine is in the same scope as before. -/
def Exec.Restores {α : Type} (x : Exec α) : Prop :=
  ∀ ⦃m : Machine⦄ ⦃outcome : Except RunError α⦄ ⦃m' : Machine⦄, x.Ends m outcome m' → m'.current = m.current

/-- What keeps a regime restores the scope. -/
theorem Exec.restores_of_keeps {α : Type} {R : Regime} {Q : α → Machine → Prop} {x : Exec α}
    (h : ∀ m, R.Keeps Q x m) : x.Restores := by
  intro m outcome m' hends
  have hm := h m
  unfold Regime.Keeps at hm
  cases hends with
  | ok hx =>
      rw [hx] at hm
      exact hm.1.current
  | error hx =>
      rw [hx] at hm
      exact hm.current

/-- An action in a scope of its own restores the scope around it, whatever it does itself. -/
theorem Exec.inScope_restores {α : Type} (scope : ScopeId) (x : Exec α) : (Exec.inScope scope x).Restores := by
  intro m outcome m' hends
  cases hends with
  | ok hx | error hx =>
      unfold Exec.inScope at hx
      simp only at hx
      split at hx <;> cases hx
      rfl

/-- **The current scope is restored.**  Whatever the tree, the table of distances, the heap and the sink are: a
statement, an expression, a block of statements, a call with or without the check of its arguments, and a function body
that ends well, returns, fails or cannot write its output leaves the machine in the scope in which it was.  So do the
statements of a program. -/
theorem scope_restored (steps : Nat) :
    (∀ s, (execute steps s).Restores) ∧
    (∀ e, (evaluate steps e).Restores) ∧
    (∀ scope body, (Exec.inScope scope (executeAll steps body)).Restores) ∧
    (∀ callee args line, (call steps callee args line).Restores) ∧
    (∀ callee args line, (callWith steps callee args line).Restores) ∧
    (∀ f args, (invoke steps f args).Restores) ∧
    (∀ p, (executeTop steps p).Restores) := by
  have hlawful := Regime.continuing_lawful
  have htasks := hlawful.governs steps
  have hvalues : ∀ m args, Regime.continuing.values m args := fun _ _ _ _ => trivial
  refine ⟨fun s => ?_, fun e => ?_, fun scope body => ?_, fun callee args line => ?_, fun callee args line => ?_,
    fun f args => ?_, fun p => ?_⟩
  · exact Exec.restores_of_keeps fun m => htasks.exec trivial trivial
  · exact Exec.restores_of_keeps fun m => htasks.eval trivial trivial
  · exact Exec.inScope_restores scope _
  · exact Exec.restores_of_keeps fun m => htasks.call trivial trivial (hvalues m args)
  · exact Exec.restores_of_keeps fun m => htasks.callWith trivial trivial (hvalues m args)
  · exact Exec.restores_of_keeps fun m => htasks.invoke trivial trivial (hvalues m args)
  · exact Exec.restores_of_keeps fun m => hlawful.top steps p trivial trivial

/-- A block that declares a function and calls it; the function fails in a block in a loop. -/
def failingDeep : Stmt :=
  .block [
    .function (.mk ⟨"f", 1⟩ [] [.whileLoop (.lit (.bool true)) (.block [.expr (.var 1 ⟨"missing", 2⟩)])]),
    .expr (.call (.var 0 ⟨"f", 3⟩) 3 [])]

/-- A machine that knows where the block declares its function. -/
def failingStart : Machine :=
  { Machine.initial .unlimited fun _ => 0 with table := DistanceTable.empty.file 0 0 }

/-- The error is raised four scopes down, and the machine is in the global scope again. -/
theorem scope_restored_failing :
    (execute 20 failingDeep).Ends failingStart (.error (.script 2 (.undefinedVariable "missing")))
      ((execute 20 failingDeep).leaves failingStart) ∧
    ((execute 20 failingDeep).leaves failingStart).heap.scopes.size = 4 ∧
    ((execute 20 failingDeep).leaves failingStart).current = globalScope := by
  have hends : (execute 20 failingDeep).Ends failingStart (.error (.script 2 (.undefinedVariable "missing")))
      ((execute 20 failingDeep).leaves failingStart) := .error (by cbv)
  exact ⟨hends, by cbv, (scope_restored 20).1 failingDeep hends⟩

end Scriptlet
