import Mathlib
import Scriptlet.Proofs.Run.Restores
import Scriptlet.Proofs.Run.Upheld

/-!
# Returning from calls

A `return` ends the statements around it, up to the call they are the body of.

* `Stmt.returnFree s` — no `return` stands in `s`, but for functions and methods that `s` declares.
* `Point.Flows P flow m'` — the statements at the point `P` end with a flow and leave the machine `m'`.
* `Point.Returns Q v m'` — at `Q` stands a `return` that yields the value `v`.
* `Point.Inside P Q` — from the statements at `P` blocks, branches and loops lead to `Q`, without a call between.
* `Point.Encloses I Q` — the call at `I` is the innermost one around `Q`.

Principal results: `Point.Inside.returns` — a `return` ends the statements around it at once;
`Point.Flows.exists_return` — statements that return have a `return` inside them; `Point.Encloses.invoke` — its value is
that of the innermost call around it; `Point.Visits.enclosed` — every statement of a run is in the body of a call or at
top level.
-/

set_option autoImplicit false

namespace Scriptlet

mutual
/-- No `return` stands in the statement, outside functions and methods that it declares. -/
def Stmt.returnFree : Stmt → Bool
  | .ret _ _ => false
  | .block body => Stmt.returnFreeAll body
  | .ifElse _ whenTrue none => whenTrue.returnFree
  | .ifElse _ whenTrue (some whenFalse) => whenTrue.returnFree && whenFalse.returnFree
  | .whileLoop _ body => body.returnFree
  | .expr _ | .print _ | .var _ _ | .function _ | .classDecl _ _ => true
/-- No `return` stands in the statements, outside functions and methods that they declare. -/
def Stmt.returnFreeAll : List Stmt → Bool
  | [] => true
  | s :: ss => s.returnFree && Stmt.returnFreeAll ss
end

/-- Whether a task is to execute statements. -/
def Task.isStatement : Task → Bool
  | .exec _ => true
  | .execAll _ => true
  | .loop _ _ => true
  | _ => false

/-- Statements without `return`. -/
def Task.returnFree : Task → Bool
  | .exec s => s.returnFree
  | .execAll ss => Stmt.returnFreeAll ss
  | .loop _ body => body.returnFree
  | _ => true

namespace Point

/-- The statements at a point end with a flow. -/
def Flows (P : Point) (flow : Flow) (m' : Machine) : Prop :=
  match P.task with
  | .exec s => execute P.steps s P.machine = .ok flow m'
  | .execAll ss => executeAll P.steps ss P.machine = .ok flow m'
  | .loop test body => loop P.steps test body P.machine = .ok flow m'
  | _ => False

/-- A `return` that yields a value. -/
def Returns (Q : Point) (v : Value) (m' : Machine) : Prop :=
  (∃ line value, Q.task = .exec (.ret line value)) ∧ Q.Flows (.returned v) m'

/-- Blocks, branches and loops lead from one point to another. -/
inductive Inside : Point → Point → Prop where
  | refl {P : Point} : P.task.isStatement = true → Inside P P
  | step {P Q R : Point} : P.task.isStatement = true → P.Calls Q → Inside Q R → Inside P R

/-- The innermost call around a point. -/
def Encloses (I Q : Point) : Prop := ∃ f args B, I.task = .invoke f args ∧ I.Calls B ∧ B.Inside Q

section Flows

variable {P Q : Point} {flow : Flow} {v : Value} {m' : Machine}

theorem Flows.isStatement (h : P.Flows flow m') : P.task.isStatement = true := by
  obtain ⟨steps, task, m⟩ := P
  cases task with
  | exec | execAll | loop => rfl
  | eval | evalAll | lookUp | assign | call | callWith | invoke | readThis | top => cases h

/-- Statements restore the current scope. -/
theorem Flows.current (h : P.Flows flow m') : m'.current = P.machine.current := by
  have htasks := Regime.continuing_lawful.governs P.steps
  obtain ⟨steps, task, m⟩ := P
  cases task with
  | exec s => exact Exec.restores_of_keeps (fun _ => htasks.exec trivial trivial) (.ok h)
  | execAll ss => exact Exec.restores_of_keeps (fun _ => htasks.execAll trivial trivial) (.ok h)
  | loop test body => exact Exec.restores_of_keeps (fun _ => htasks.loop trivial trivial) (.ok h)
  | eval | evalAll | lookUp | assign | call | callWith | invoke | readThis | top => cases h

theorem Flows.restored (h : P.Flows flow m') : P.Flows flow { m' with current := P.machine.current } := by
  rw [← h.current]
  exact h

end Flows

/-! ## From a return outward -/

section Outward

variable {P Q : Point} {v : Value} {m' : Machine}

/-- Statements return if one of their parts does, and do nothing more. -/
theorem Calls.returns (hcall : P.Calls Q) (hP : P.task.isStatement = true) (h : Q.Flows (.returned v) m') :
    P.Flows (.returned v) { m' with current := P.machine.current } := by
  have hQ := h.isStatement
  cases hcall with
  | @block steps m m₁ body scope hscope =>
      have hbody : executeAll steps body { m₁ with current := scope } = .ok (.returned v) m' := h
      cases hscope
      show execute (steps + 1) (.block body) m = _
      unfold execute
      simp only [Exec.inScope, hbody, Bind.bind, EStateM.bind, Exec.currentScope, Exec.newScope]
  | @ifTrue steps m m₁ test whenTrue whenFalse a htest hholds =>
      have hbranch : execute steps whenTrue m₁ = .ok (.returned v) m' := h
      refine Flows.restored (P := ⟨steps + 1, .exec (.ifElse test whenTrue whenFalse), m⟩) ?_
      show execute (steps + 1) (.ifElse test whenTrue whenFalse) m = _
      unfold execute
      refine (Exec.bind_of_ok htest).trans ?_
      rw [if_pos hholds]
      exact hbranch
  | @ifFalse steps m m₁ test whenTrue whenFalse a htest hfails =>
      have hbranch : execute steps whenFalse m₁ = .ok (.returned v) m' := h
      refine Flows.restored (P := ⟨steps + 1, .exec (.ifElse test whenTrue (some whenFalse)), m⟩) ?_
      show execute (steps + 1) (.ifElse test whenTrue (some whenFalse)) m = _
      unfold execute
      refine (Exec.bind_of_ok htest).trans ?_
      rw [if_neg (Bool.eq_false_iff.mp hfails)]
      exact hbranch
  | @whileLoop steps m test body =>
      have hloop : loop steps test body m = .ok (.returned v) m' := h
      refine Flows.restored (P := ⟨steps + 1, .exec (.whileLoop test body), m⟩) ?_
      show execute (steps + 1) (.whileLoop test body) m = _
      unfold execute
      exact hloop
  | @firstStmt steps m s ss =>
      have hfirst : execute steps s m = .ok (.returned v) m' := h
      refine Flows.restored (P := ⟨steps + 1, .execAll (s :: ss), m⟩) ?_
      show executeAll (steps + 1) (s :: ss) m = _
      unfold executeAll
      exact Exec.bind_of_ok hfirst
  | @otherStmts steps m m₁ s ss hfirst =>
      have hrest : executeAll steps ss m₁ = .ok (.returned v) m' := h
      refine Flows.restored (P := ⟨steps + 1, .execAll (s :: ss), m⟩) ?_
      show executeAll (steps + 1) (s :: ss) m = _
      unfold executeAll
      exact (Exec.bind_of_ok hfirst).trans hrest
  | @loopBody steps m m₁ test body a htest hholds =>
      have hbody : execute steps body m₁ = .ok (.returned v) m' := h
      refine Flows.restored (P := ⟨steps + 1, .loop test body, m⟩) ?_
      show loop (steps + 1) test body m = _
      unfold loop
      rw [Exec.bind_of_ok htest, if_pos hholds]
      exact Exec.bind_of_ok hbody
  | @loopAgain steps m m₁ m₂ test body a htest hholds hbody =>
      have hrest : loop steps test body m₂ = .ok (.returned v) m' := h
      refine Flows.restored (P := ⟨steps + 1, .loop test body, m⟩) ?_
      show loop (steps + 1) test body m = _
      unfold loop
      rw [Exec.bind_of_ok htest, if_pos hholds]
      exact (Exec.bind_of_ok hbody).trans hrest
  -- The parts of any other task are no statements, or it is no statement itself.
  | _ => first | (cases hQ; done) | cases hP

/-- **A `return` ends the statements around it at once**: they return its value and leave what it leaves, in the scope
in which they began. -/
theorem Inside.returns (hinside : P.Inside Q) (h : Q.Flows (.returned v) m') :
    P.Flows (.returned v) { m' with current := P.machine.current } := by
  induction hinside with
  | refl => exact h.restored
  | step hP hcall _ ih =>
      have hreturns := hcall.returns hP (ih h)
      exact hreturns

theorem Inside.isStatement (hinside : P.Inside Q) : P.task.isStatement = true := by
  cases hinside with
  | refl hP => exact hP
  | step hP _ _ => exact hP

end Outward

/-! ## From statements that return inward -/

section Inward

variable {P Q : Point} {v : Value} {m' : Machine}

/-- **What returns is a `return`, or has a part that returns.** -/
theorem Flows.origin (h : P.Flows (.returned v) m') : (∃ line value, P.task = .exec (.ret line value)) ∨
    ∃ Q m'', P.Calls Q ∧ Q.Flows (.returned v) m'' ∧ m' = { m'' with current := P.machine.current } := by
  have hself : m' = { m' with current := P.machine.current } := by rw [← h.current]
  obtain ⟨steps, task, m⟩ := P
  cases task with
  | exec s =>
      have hrun : execute steps s m = .ok (.returned v) m' := h
      cases steps with
      | zero => cases hrun
      | succ steps =>
          unfold execute at hrun
          cases s with
          | ret line value => exact .inl ⟨line, value, rfl⟩
          | block body =>
              obtain ⟨current, m₁, hcurrent, hrest⟩ := Exec.bind_ok hrun
              cases hcurrent
              obtain ⟨scope, m₂, hscope, hbody⟩ := Exec.bind_ok hrest
              unfold Exec.inScope at hbody
              simp only at hbody
              split at hbody
              · rename_i flow m₃ hinner
                cases hbody
                cases hscope
                exact .inr ⟨_, m₃, .block rfl, hinner, rfl⟩
              · cases hbody
          | ifElse test whenTrue whenFalse =>
              obtain ⟨a, m₁, htest, hrest⟩ := Exec.bind_ok hrun
              split at hrest
              · rename_i hholds
                exact .inr ⟨_, m', .ifTrue htest hholds, hrest, hself⟩
              · rename_i hfails
                cases whenFalse with
                | none => cases hrest
                | some whenFalse => exact .inr ⟨_, m', .ifFalse htest (Bool.eq_false_iff.mpr hfails), hrest, hself⟩
          | whileLoop test body => exact .inr ⟨_, m', .whileLoop, hrun, hself⟩
          | expr e =>
              obtain ⟨a, m₁, -, hrest⟩ := Exec.bind_ok hrun
              cases hrest
          | print e =>
              obtain ⟨a, m₁, -, hrest⟩ := Exec.bind_ok hrun
              obtain ⟨text, m₂, -, hrest⟩ := Exec.bind_ok hrest
              obtain ⟨_, m₃, -, hrest⟩ := Exec.bind_ok hrest
              cases hrest
          | var name init =>
              cases init with
              | none =>
                  obtain ⟨_, m₁, -, hrest⟩ := Exec.bind_ok hrun
                  cases hrest
              | some init =>
                  obtain ⟨a, m₁, -, hrest⟩ := Exec.bind_ok hrun
                  obtain ⟨_, m₂, -, hrest⟩ := Exec.bind_ok hrest
                  cases hrest
          | function decl =>
              obtain ⟨_, m₁, -, hrest⟩ := Exec.bind_ok hrun
              cases hrest
          | classDecl name methods =>
              obtain ⟨_, m₁, -, hrest⟩ := Exec.bind_ok hrun
              cases hrest
  | execAll ss =>
      have hrun : executeAll steps ss m = .ok (.returned v) m' := h
      cases steps with
      | zero => cases hrun
      | succ steps =>
          cases ss with
          | nil => cases hrun
          | cons s ss =>
              unfold executeAll at hrun
              obtain ⟨flow, m₁, hfirst, hrest⟩ := Exec.bind_ok hrun
              cases flow with
              | normal => exact .inr ⟨_, m', .otherStmts hfirst, hrest, hself⟩
              | returned w =>
                  cases hrest
                  exact .inr ⟨_, m', .firstStmt, hfirst, hself⟩
  | loop test body =>
      have hrun : loop steps test body m = .ok (.returned v) m' := h
      cases steps with
      | zero => cases hrun
      | succ steps =>
          unfold loop at hrun
          obtain ⟨a, m₁, htest, hrest⟩ := Exec.bind_ok hrun
          split at hrest
          · rename_i hholds
            obtain ⟨flow, m₂, hbody, hrest⟩ := Exec.bind_ok hrest
            cases flow with
            | normal => exact .inr ⟨_, m', .loopAgain htest hholds hbody, hrest, hself⟩
            | returned w =>
                cases hrest
                exact .inr ⟨_, m', .loopBody htest hholds, hbody, hself⟩
          · cases hrest
  | eval | evalAll | lookUp | assign | call | callWith | invoke | readThis | top => cases h

/-- A task has fewer steps than the one it is part of. -/
theorem Calls.steps_lt (hcall : P.Calls Q) : Q.steps < P.steps := by
  cases hcall <;> exact Nat.lt_succ_self _

/-- **Statements that return have a `return` inside them that does.** -/
theorem Flows.exists_return (h : P.Flows (.returned v) m') :
    ∃ Q m'', P.Inside Q ∧ Q.Returns v m'' ∧ m' = { m'' with current := P.machine.current } := by
  induction hsteps : P.steps using Nat.strongRecOn generalizing P m' with
  | ind steps ih =>
      rcases h.origin with hret | ⟨Q, m₁, hcall, hQ, rfl⟩
      · exact ⟨P, m', .refl h.isStatement, ⟨hret, h⟩, by rw [← h.current]⟩
      · obtain ⟨R, m₂, hinside, hreturns, rfl⟩ := ih Q.steps (hsteps ▸ hcall.steps_lt) hQ rfl
        exact ⟨R, m₂, .step h.isStatement hcall hinside, hreturns, rfl⟩

/-- The parts of statements without `return` are such statements. -/
theorem Calls.returnFree (hcall : P.Calls Q) (hP : P.task.isStatement = true) (h : P.task.returnFree = true) :
    Q.task.returnFree = true := by
  cases hcall with
  | block | whileLoop | loopBody | loopAgain => exact h
  | @ifTrue _ _ _ _ _ whenFalse =>
      cases whenFalse with
      | none => exact h
      | some whenFalse => exact (Bool.and_eq_true_iff.mp h).1
  | ifFalse => exact (Bool.and_eq_true_iff.mp h).2
  | firstStmt => exact (Bool.and_eq_true_iff.mp h).1
  | otherStmts => exact (Bool.and_eq_true_iff.mp h).2
  | _ => first | rfl | cases hP

theorem Inside.returnFree (hinside : P.Inside Q) (h : P.task.returnFree = true) : Q.task.returnFree = true := by
  induction hinside with
  | refl => exact h
  | step hP hcall _ ih => exact ih (hcall.returnFree hP h)

/-- Statements without `return` do not return. -/
theorem Flows.normal {flow : Flow} (h : P.Flows flow m') (hfree : P.task.returnFree = true) : flow = .normal := by
  cases flow with
  | normal => rfl
  | returned v =>
      obtain ⟨Q, m'', hinside, ⟨⟨line, value, hret⟩, -⟩, -⟩ := h.exists_return
      have hQ := hinside.returnFree hfree
      rw [hret] at hQ
      cases hQ

end Inward

/-! ## Calls -/

section Calls

variable {f : Function} {args : List Value} {steps : Nat} {m m' : Machine} {P Q : Point} {v : Value}

/-- The body of a call ends with the `return` that the call encloses. -/
theorem Encloses.body (henclosed : Encloses ⟨steps, .invoke f args, m⟩ Q) (hreturns : Q.Returns v m') :
    ∃ fewer scope m₁, steps = fewer + 1 ∧
      Exec.newScope f.closure (.ofParameters f.decl.params args) m = .ok scope m₁ ∧
      Exec.inScope scope (executeAll fewer f.decl.body) m₁ = .ok (.returned v) { m' with current := m.current } := by
  obtain ⟨f', args', B, htask, hcall, hinside⟩ := henclosed
  cases hcall with
  | @body fewer m m₁ f args scope hscope =>
      have hbody : executeAll fewer f.decl.body { m₁ with current := scope } =
          .ok (.returned v) { m' with current := scope } := hinside.returns hreturns.2
      refine ⟨fewer, scope, m₁, rfl, hscope, ?_⟩
      cases hscope
      unfold Exec.inScope
      simp only [hbody]
  | readThis => cases hinside.isStatement

/-- **A `return` gives the innermost call around it its value**, and the machine that the call leaves; an initializer
reads `this` instead. -/
theorem Encloses.invoke (henclosed : Encloses ⟨steps, .invoke f args, m⟩ Q) (hreturns : Q.Returns v m') :
    Scriptlet.invoke steps f args m =
      (if f.isInitializer then Exec.readAt f.closure 0 thisName else pure v) { m' with current := m.current } := by
  obtain ⟨fewer, scope, m₁, rfl, hscope, hbody⟩ := henclosed.body hreturns
  unfold Scriptlet.invoke
  refine (Exec.bind_of_ok hscope).trans ((Exec.bind_of_ok hbody).trans ?_)
  cases f.isInitializer <;> rfl

/-- A call of a function that is no initializer yields the value of a `return` that it encloses, or null after the end
of its body. -/
theorem invoke_origin (hinit : f.isInitializer = false) (h : Scriptlet.invoke steps f args m = .ok v m') :
    (∃ Q m'', Encloses ⟨steps, .invoke f args, m⟩ Q ∧ Q.Returns v m'' ∧ m' = { m'' with current := m.current }) ∨
    v = .null ∧ ∃ B m'', Calls ⟨steps, .invoke f args, m⟩ B ∧ B.Flows .normal m'' ∧
      m' = { m'' with current := m.current } := by
  cases steps with
  | zero => cases h
  | succ steps =>
      unfold Scriptlet.invoke at h
      obtain ⟨scope, m₁, hscope, hrest⟩ := Exec.bind_ok h
      obtain ⟨flow, m₂, hbody, hlast⟩ := Exec.bind_ok hrest
      have hcurrent : m₁.current = m.current := by
        cases hscope
        rfl
      rw [if_neg (Bool.eq_false_iff.mp hinit)] at hlast
      unfold Exec.inScope at hbody
      simp only at hbody
      split at hbody
      case h_2 => cases hbody
      case h_1 flow' m₃ hinner =>
        cases hbody
        have hflows : Flows ⟨steps, .execAll f.decl.body, { m₁ with current := scope }⟩ flow m₃ := hinner
        cases flow with
        | normal =>
            cases hlast
            exact .inr ⟨rfl, _, m₃, .body hscope, hflows, by rw [hcurrent]⟩
        | returned w =>
            cases hlast
            obtain ⟨Q, m₄, hinside, hreturns, rfl⟩ := hflows.exists_return
            exact .inl ⟨Q, m₄, ⟨f, args, _, rfl, .body hscope, hinside⟩, hreturns, by rw [hcurrent]⟩

/-- A call of a class yields the object that it adds, whatever the constructor returns. -/
theorem callWith_classRef {c : ClassId} {line : Nat} (h : callWith steps (.classRef c) args line m = .ok v m') :
    v = .object m.heap.objects.size := by
  cases steps with
  | zero => cases h
  | succ steps =>
      unfold callWith at h
      obtain ⟨object, m₁, hobject, hrest⟩ := Exec.bind_ok h
      obtain ⟨found, m₂, -, hrest⟩ := Exec.bind_ok hrest
      cases hobject
      cases found with
      | none =>
          cases hrest
          rfl
      | some method =>
          obtain ⟨bound, m₃, -, hrest⟩ := Exec.bind_ok hrest
          obtain ⟨result, m₄, -, hrest⟩ := Exec.bind_ok hrest
          cases hrest
          rfl

/-- **Every statement of a run has a call around it**, but for the statements in which the run starts and those at top
level. -/
theorem Visits.enclosed (hvisit : P.Visits Q) (hQ : Q.task.isStatement = true) :
    P.Inside Q ∨ (∃ I, P.Visits I ∧ I.Encloses Q) ∨
      ∃ steps s ss m, P.Visits ⟨steps + 1, .top (s :: ss), m⟩ ∧ Inside ⟨steps, .exec s, m⟩ Q := by
  induction hvisit with
  | refl => exact .inl (.refl hQ)
  | @step P R Q hcall hvisit ih =>
      rcases ih hQ with hinside | ⟨I, hI, hencloses⟩ | ⟨steps, s, ss, m, htop, hinside⟩
      · have hR := hinside.isStatement
        cases hP : P.task.isStatement with
        | true => exact .inl (.step hP hcall hinside)
        | false =>
            -- Only calls and the top level lead to statements from elsewhere.
            cases hcall with
            | body hscope => exact .inr (.inl ⟨_, .refl _, _, _, _, rfl, .body hscope, hinside⟩)
            | topFirst => exact .inr (.inr ⟨_, _, _, _, .refl _, hinside⟩)
            | _ => first | (cases hR; done) | cases hP
      · exact .inr (.inl ⟨I, .step hcall hI, hencloses⟩)
      · exact .inr (.inr ⟨steps, s, ss, m, .step hcall htop, hinside⟩)

end Calls

end Point

end Scriptlet
