import Scriptlet.Proofs.Run.Points
import Scriptlet.Proofs.Scoping.Safe

/-!
# Runs of scoped programs

* `Point.FitsIn L Γ P` — at the point `P` the machine is ready, its scopes are those of `Γ`, and the task is
  scoped there.
* `StepsSafe L steps` — every task that fits is safe, with the given number of steps.

Principal results: `Point.FitsIn.calls` — the tasks that a task is made of fit as well; `stepsSafe` — every
task that fits is safe, for any number of steps; `Point.Fits.visits` — every point of a run fits.

Expressions bind no new global names; statements bind only those of declarations in the global scope.
-/

set_option autoImplicit false

namespace Scriptlet

/-- A task is scoped as the layout says. -/
def Task.Fits (L : Layout) (Γ : ScopeStack) (h : Heap) : Task → Prop
  | .eval e => L.PlacesAll Γ e.references
  | .evalAll es => L.PlacesAll Γ (Expr.referencesAll es)
  | .lookUp id name => ∃ access, access ≠ .write ∧ L.Places Γ ⟨id, name.name, access⟩
  | .assign id name _ => ∃ access, L.Places Γ ⟨id, name.name, access⟩
  | .call _ _ _ => True
  | .callWith callee args _ => h.arity? callee = some args.length
  | .invoke f args => FunctionFits L h f ∧ args.length = f.decl.params.length
  | .readThis closure => (h.scope closure).names.binds thisName = true
  | .exec s => s.Scoped L Γ
  | .execAll ss => Stmt.ScopedAll L Γ ss
  | .loop test body => (Stmt.whileLoop test body).Scoped L Γ
  | .top p => Γ = [] ∧ Stmt.ScopedAll L [] p

namespace Point

/-- A point at which everything is as the layout says. -/
structure FitsIn (L : Layout) (Γ : ScopeStack) (P : Point) : Prop where
  ready : Ready L P.machine
  covers : Covers L.strict P.machine.heap P.machine.current Γ
  task : P.task.Fits L Γ P.machine.heap

/-- A point that fits in some scopes. -/
def Fits (L : Layout) (P : Point) : Prop := ∃ Γ, P.FitsIn L Γ

/-- The names that the run from a point may add to the global scope. -/
def Adds (P : Point) (name : String) : Prop :=
  P.machine.current = globalScope ∧ P.Declares name

theorem Adds.step {P Q : Point} {name : String} (hcall : P.Calls Q)
    (hcurrent : Q.machine.current = P.machine.current) (h : Q.Adds name) : P.Adds name :=
  ⟨hcurrent ▸ h.1, h.2.step hcall⟩

/-- A declaration in the global scope adds its name. -/
theorem adds_of_declared {steps : Nat} {s : Stmt} {m : Machine} {name : String}
    (h : s.declared? = some name) (hglobal : m.current = globalScope) :
    Adds ⟨steps, .exec s, m⟩ name :=
  ⟨hglobal, _, s, .refl _, rfl, hglobal, h⟩

end Point

/-- Every task that fits is safe. -/
structure StepsSafe (L : Layout) (steps : Nat) : Prop where
  eval : ∀ {e : Expr} {m : Machine} {D : String → Prop}, Point.Fits L ⟨steps, .eval e, m⟩ →
    Safe L D (fun _ _ => True) (evaluate steps e) m
  evalAll : ∀ {es : List Expr} {m : Machine} {D : String → Prop}, Point.Fits L ⟨steps, .evalAll es, m⟩ →
    Safe L D (fun _ _ => True) (evaluateAll steps es) m
  call : ∀ {callee : Value} {args : List Value} {line : Nat} {m : Machine} {D : String → Prop},
    Point.Fits L ⟨steps, .call callee args line, m⟩ →
    Safe L D (fun _ _ => True) (call steps callee args line) m
  callWith : ∀ {callee : Value} {args : List Value} {line : Nat} {m : Machine} {D : String → Prop},
    Point.Fits L ⟨steps, .callWith callee args line, m⟩ →
    Safe L D (fun _ _ => True) (callWith steps callee args line) m
  invoke : ∀ {f : Function} {args : List Value} {m : Machine} {D : String → Prop},
    Point.Fits L ⟨steps, .invoke f args, m⟩ →
    Safe L D (fun _ _ => True) (invoke steps f args) m
  exec : ∀ {s : Stmt} {m : Machine} {Γ : ScopeStack}, Point.FitsIn L Γ ⟨steps, .exec s, m⟩ →
    Safe L (Point.Adds ⟨steps, .exec s, m⟩)
      (fun flow m' => flow = .normal → Covers L.strict m'.heap m'.current (s.scopesAfter Γ))
      (execute steps s) m
  execAll : ∀ {ss : List Stmt} {m : Machine}, Point.Fits L ⟨steps, .execAll ss, m⟩ →
    Safe L (Point.Adds ⟨steps, .execAll ss, m⟩) (fun _ _ => True) (executeAll steps ss) m
  loop : ∀ {test : Expr} {body : Stmt} {m : Machine}, Point.Fits L ⟨steps, .loop test body, m⟩ →
    Safe L (Point.Adds ⟨steps, .loop test body, m⟩) (fun _ _ => True) (loop steps test body) m
  top : ∀ {p : Program} {m : Machine}, Point.Fits L ⟨steps, .top p, m⟩ →
    Safe L (Point.Adds ⟨steps, .top p, m⟩) (fun _ _ => True) (executeTop steps p) m

section Calls

variable {L : Layout} {Γ : ScopeStack} {steps : Nat} {m m' : Machine}

/-- What a safe action leaves when it ends well. -/
theorem Safe.of_ok {α : Type} {D : String → Prop} {Q : α → Machine → Prop} {x : Exec α} {a : α}
    (h : Safe L D Q x m) (hx : x m = .ok a m') : Kept L D m m' ∧ Q a m' := by
  unfold Safe at h
  rwa [hx] at h

theorem Layout.PlacesAll.sub {refs refs' : List Reference} (h : L.PlacesAll Γ refs)
    (hsub : ∀ r ∈ refs', r ∈ refs) : L.PlacesAll Γ refs' :=
  fun r hr => h r (hsub r hr)

/-- A declaration that has begun binds nothing yet. -/
theorem Covers.begin {strict : Bool} {h : Heap} {i : ScopeId} {Γ : ScopeStack}
    (hc : Covers strict h i Γ) (name : String) : Covers strict h i (Γ.mark name false) := by
  cases Γ with
  | nil => exact hc
  | cons scope Γ =>
      obtain ⟨hi, hb, hrest⟩ := hc
      refine ⟨hi, fun hs key hkey => hb hs key ?_, hrest⟩
      rw [List.lookup_cons] at hkey
      split at hkey
      · cases hkey
      · exact hkey

theorem Stmt.Scoped.ifTest {test : Expr} {whenTrue : Stmt} : ∀ {whenFalse : Option Stmt},
    (Stmt.ifElse test whenTrue whenFalse).Scoped L Γ → L.PlacesAll Γ test.references
  | none, h => h.1
  | some _, h => h.1

theorem Stmt.Scoped.ifTrue {test : Expr} {whenTrue : Stmt} : ∀ {whenFalse : Option Stmt},
    (Stmt.ifElse test whenTrue whenFalse).Scoped L Γ → whenTrue.Scoped L Γ
  | none, h => h.2.1
  | some _, h => h.2.1

/-- Under a strict layout a conditional leaves the scopes as they were. -/
theorem Stmt.Scoped.scopesAfter_ifElse {test : Expr} {whenTrue : Stmt} (hstrict : L.strict = true) :
    ∀ {whenFalse : Option Stmt}, (Stmt.ifElse test whenTrue whenFalse).Scoped L Γ →
      (Stmt.ifElse test whenTrue whenFalse).scopesAfter Γ = Γ
  | none, h => h.2.2 hstrict
  | some _, h => by rw [Stmt.scopesAfter, (h.2.2.2 hstrict).1, (h.2.2.2 hstrict).2]

theorem FunctionDecl.Scoped.body : ∀ {d : FunctionDecl}, d.Scoped L Γ →
    Stmt.ScopedAll L (parameterScope d.params :: Γ) d.body
  | .mk _ _ _, h => h

namespace Point

/-- Another task in the same scopes. -/
theorem FitsIn.at {D : String → Prop} {steps' : Nat} {task task' : Task}
    (h : FitsIn L Γ ⟨steps, task, m⟩) (hk : Kept L D m m') (htask : task'.Fits L Γ m'.heap) :
    FitsIn L Γ ⟨steps', task', m'⟩ :=
  ⟨hk.ready, hk.covers h.covers, htask⟩

/-- Another task after the value of an expression in the same scopes. -/
theorem FitsIn.afterEval {task task' : Task} {steps' : Nat} {e : Expr} {a : Value}
    (h : FitsIn L Γ ⟨steps', task, m⟩) (ih : StepsSafe L steps) (he : L.PlacesAll Γ e.references)
    (hrun : evaluate steps e m = .ok a m') (htask : task'.Fits L Γ m'.heap) :
    FitsIn L Γ ⟨steps, task', m'⟩ :=
  h.at ((ih.eval (D := fun _ => False) ⟨Γ, h.ready, h.covers, he⟩).of_ok hrun).1 htask

theorem Fits.ready {task : Task} (h : Fits L ⟨steps, task, m⟩) : Ready L m :=
  h.choose_spec.ready

/-- A name is read safely. -/
theorem Fits.lookUp {D : String → Prop} {id : NodeId} {name : Ident}
    (h : Fits L ⟨steps, .lookUp id name, m⟩) :
    Safe L D (fun _ m' => m' = m) (Exec.lookUp id name) m := by
  obtain ⟨Γ, hm, hc, access, haccess, hplaced⟩ := h
  exact safe_lookUp hm hc hplaced haccess fun _ => rfl

/-- A name is assigned safely. -/
theorem Fits.assign {D : String → Prop} {id : NodeId} {name : Ident} {value : Value}
    (h : Fits L ⟨steps, .assign id name value, m⟩) :
    Safe L D (fun _ _ => True) (Exec.assign id name value) m := by
  obtain ⟨Γ, hm, hc, access, hplaced⟩ := h
  exact safe_assign hm hc hplaced fun _ _ => trivial

/-- The body of a function fits in the scope of its arguments. -/
theorem fits_body {f : Function} {args : List Value} {scope : ScopeId} (hm : Ready L m)
    (hf : FunctionFits L m.heap f) (hlen : args.length = f.decl.params.length)
    (hrun : Exec.newScope f.closure (.ofParameters f.decl.params args) m = .ok scope m') :
    Fits L ⟨steps, .execAll f.decl.body, { m' with current := scope }⟩ := by
  obtain ⟨Δ, hc, hs⟩ := hf.covers
  cases hrun
  refine ⟨parameterScope f.decl.params :: Δ, ⟨hm.heap.addScope _, hm.table⟩, ?_, hs.body⟩
  refine hc.push hm.heap.inhabited fun _ name hname => ?_
  obtain ⟨param, hparam, rfl⟩ := exists_of_lookup_parameterScope hname
  exact Bindings.binds_ofParameters hlen hparam

/-- The body of a function runs safely in the scope of its arguments. -/
theorem safe_body {D : String → Prop} {f : Function} {args : List Value} {scope : ScopeId}
    (ih : StepsSafe L steps) (hm : Ready L m) (hf : FunctionFits L m.heap f)
    (hlen : args.length = f.decl.params.length)
    (hrun : Exec.newScope f.closure (.ofParameters f.decl.params args) m = .ok scope m') :
    Safe L D (fun _ _ => True) (Exec.inScope scope (executeAll steps f.decl.body)) m' := by
  have hlocal : scope ≠ globalScope := by
    cases hrun
    exact Nat.ne_of_gt hm.heap.inhabited
  refine safe_inScope ((ih.execAll (fits_body hm hf hlen hrun)).widen ?_)
  exact fun _ hadds => absurd hadds.1 hlocal

/-- The initializer of a new instance fits: it takes the arguments of the class. -/
theorem FitsIn.construct {steps' line : Nat} {m₁ m₂ : Machine} {id : ClassId} {args : List Value}
    {object : ObjectId} {method bound : Function}
    (h : FitsIn L Γ ⟨steps', .callWith (.classRef id) args line, m⟩)
    (hobject : Exec.newObject id m = .ok object m₁)
    (hmethod : (m₁.heap.cls id).method? constructorName = some method)
    (hbound : Exec.bindMethod method object m₁ = .ok bound m₂) :
    FitsIn L Γ ⟨steps, .invoke bound args, m₂⟩ := by
  cases hobject
  have hk₁ : Kept L (fun _ => False) m { m with heap := m.heap.addObject ⟨id, []⟩ } :=
    kept_newObject h.ready
  obtain ⟨hk₂, hf, hdecl⟩ :=
    (safe_bindMethod (D := fun _ => False) hk₁.ready (hk₁.ready.method hmethod)).of_ok hbound
  have harity : (m.heap.cls id).arity = args.length := Option.some.inj h.task
  have hmethod' : (m.heap.cls id).method? constructorName = some method := hmethod
  rw [Class.arity, hmethod'] at harity
  refine h.at (hk₁.trans hk₂) ⟨hf, ?_⟩
  rw [hdecl]
  exact harity.symm

/-- After the body of an initializer the instance is still in the scope of its closure. -/
theorem FitsIn.readThis {steps' : Nat} {m₁ m₂ : Machine} {f : Function} {args : List Value}
    {scope : ScopeId} {flow : Flow} (ih : StepsSafe L steps)
    (h : FitsIn L Γ ⟨steps', .invoke f args, m⟩)
    (hscope : Exec.newScope f.closure (.ofParameters f.decl.params args) m = .ok scope m₁)
    (hbody : Exec.inScope scope (executeAll steps f.decl.body) m₁ = .ok flow m₂)
    (hinit : f.isInitializer = true) : FitsIn L Γ ⟨steps, .readThis f.closure, m₂⟩ := by
  obtain ⟨hf, hlen⟩ := h.task
  have hkept := ((safe_body (D := fun _ => False) ih h.ready hf hlen hscope).of_ok hbody).1
  cases hscope
  have hk : Kept L (fun _ => False) m m₂ := (kept_newScope h.ready).trans hkept
  exact h.at hk (hk.grows.binds _ _ (hf.this hinit))

/-- **The tasks that a task is made of fit.** -/
theorem FitsIn.calls {task : Task} {Q : Point} (ih : StepsSafe L steps)
    (h : FitsIn L Γ ⟨steps + 1, task, m⟩) (hcall : Calls ⟨steps + 1, task, m⟩ Q) : Q.Fits L := by
  have hk : Kept L (fun _ => False) m m := .refl h.ready
  have ht := h.task
  cases hcall with
  | group | unary | get | array | expr | print | ret | whileLoop => exact ⟨Γ, h.at hk ht⟩
  | var | this => exact ⟨Γ, h.at hk ⟨.read, nofun, ht _ (by simp [Expr.references])⟩⟩
  | binaryLeft | logicalLeft | ternaryTest | assignValue | updateOperand | indexPosition | callee
    | setObject =>
      exact ⟨Γ, h.at hk (ht.sub fun r hr => by simp [Expr.references, hr])⟩
  | binaryRight hl | logicalRight hl | ternaryTrue hl _ | ternaryFalse hl _ | indexTarget hl
    | arguments hl | setValue hl =>
      refine ⟨Γ, h.afterEval ih (ht.sub ?_) hl (ht.sub ?_)⟩ <;>
        exact fun r hr => by simp [Expr.references, hr]
  | assign hl =>
      refine ⟨Γ, h.afterEval ih (ht.sub ?_) hl ⟨.write, ht _ (by simp [Expr.references])⟩⟩
      exact fun r hr => by simp [Expr.references, hr]
  | updateOld hl =>
      refine ⟨Γ, h.afterEval ih (ht.sub ?_) hl ⟨.update, nofun, ht _ (by simp [Expr.references])⟩⟩
      exact fun r hr => by simp [Expr.references, hr]
  | @updateNew _ _ m₁ _ id name _ operand _ _ _ hl hold _ =>
      have hplaced : L.Places Γ ⟨id, name.name, .update⟩ := ht _ (by simp [Expr.references])
      have h₁ : FitsIn L Γ ⟨steps, .lookUp id name, m₁⟩ :=
        h.afterEval ih (ht.sub fun r hr => by simp [Expr.references, hr]) hl ⟨.update, nofun, hplaced⟩
      exact ⟨Γ, h₁.at ((Fits.lookUp (D := fun _ => False) ⟨Γ, h₁⟩).of_ok hold).1 ⟨.update, hplaced⟩⟩
  | @call _ _ m₁ _ callee _ args _ _ hf hargs =>
      have hcallee : FitsIn L Γ ⟨steps, .evalAll args, m₁⟩ :=
        h.afterEval ih (ht.sub fun r hr => by simp [Expr.references, hr]) hf
          (Layout.PlacesAll.sub ht fun r hr => by simp [Expr.references, hr])
      exact ⟨Γ, hcallee.at ((ih.evalAll (D := fun _ => False) ⟨Γ, hcallee⟩).of_ok hargs).1 trivial⟩
  | firstValue => exact ⟨Γ, h.at hk (ht.sub fun r hr => by simp [Expr.referencesAll, hr])⟩
  | otherValues hl =>
      refine ⟨Γ, h.afterEval ih (ht.sub ?_) hl (ht.sub ?_)⟩ <;>
        exact fun r hr => by simp [Expr.referencesAll, hr]
  | callWith harity => exact ⟨Γ, h.at hk harity⟩
  | invoke =>
      exact ⟨Γ, h.at hk ⟨h.ready.heap.functions _, (Option.some.inj ht).symm⟩⟩
  | construct hobject hmethod hbound => exact ⟨Γ, h.construct hobject hmethod hbound⟩
  | body hrun => exact fits_body h.ready ht.1 ht.2 hrun
  | readThis hscope hbody hinit => exact ⟨Γ, h.readThis ih hscope hbody hinit⟩
  | init => exact ⟨_, hk.ready, h.covers.begin _, ht⟩
  | block hrun =>
      cases hrun
      exact ⟨[] :: Γ, ⟨h.ready.heap.addScope _, h.ready.table⟩,
        h.covers.push h.ready.heap.inhabited nofun, ht⟩
  | ifTest => exact ⟨Γ, h.at hk ht.ifTest⟩
  | ifTrue hl _ => exact ⟨Γ, h.afterEval ih ht.ifTest hl ht.ifTrue⟩
  | ifFalse hl _ =>
      -- Without strictness the first branch counts as executed, but its names are not looked at.
      have h₁ := (ih.eval (D := fun _ => False) ⟨Γ, h.at hk ht.1⟩).of_ok hl
      refine ⟨_, h₁.1.ready, (h₁.1.covers h.covers).relax ?_ ?_, ht.2.2.1⟩
      · exact fun hstrict => (ht.2.2.2 hstrict).1
      · exact Stmt.length_scopesAfter _ _
  | loopTest => exact ⟨Γ, h.at hk ht.1⟩
  | loopBody hl _ => exact ⟨Γ, h.afterEval ih ht.1 hl ht.2.1⟩
  | loopAgain hl _ hbody =>
      have h₁ : FitsIn L Γ ⟨steps, .exec _, _⟩ := h.afterEval ih ht.1 hl ht.2.1
      exact ⟨Γ, h₁.at ((ih.exec h₁).of_ok hbody).1 ht⟩
  | firstStmt => exact ⟨Γ, h.at hk ht.1⟩
  | otherStmts hs =>
      have h₁ : FitsIn L Γ ⟨steps, .exec _, m⟩ := h.at hk ht.1
      obtain ⟨hk₁, hc₁⟩ := (ih.exec h₁).of_ok hs
      exact ⟨_, hk₁.ready, hc₁ rfl, ht.2⟩
  | topFirst =>
      obtain ⟨rfl, hs⟩ := ht
      exact ⟨[], h.at hk hs.1⟩
  | topOthers hs =>
      obtain ⟨rfl, hs'⟩ := ht
      have h₁ : FitsIn L [] ⟨steps, .exec _, m⟩ := h.at hk hs'.1
      refine ⟨[], h₁.at ((ih.exec h₁).of_ok hs).1 ⟨rfl, ?_⟩⟩
      simpa using hs'.2

theorem Fits.calls {task : Task} {Q : Point} (ih : StepsSafe L steps)
    (h : Fits L ⟨steps + 1, task, m⟩) (hcall : Calls ⟨steps + 1, task, m⟩ Q) : Q.Fits L :=
  h.choose_spec.calls ih hcall

end Point

end Calls

/-! ## One more step -/

section Succ

variable {L : Layout} {steps : Nat} {m : Machine} {D : String → Prop}

theorem evaluate_succ_safe (ih : StepsSafe L steps) {e : Expr}
    (h : Point.Fits L ⟨steps + 1, .eval e, m⟩) :
    Safe L D (fun _ _ => True) (evaluate (steps + 1) e) m := by
  unfold evaluate
  cases e with
  | lit value => exact safe_pure h.ready trivial
  | group inner => exact ih.eval (h.calls ih .group)
  | unary op operand =>
      refine (ih.eval (h.calls ih .unary)).bind fun a m₁ _ hk _ => ?_
      exact safe_orFail hk.ready fun _ => trivial
  | binary op left right =>
      refine (ih.eval (h.calls ih .binaryLeft)).bind fun a m₁ ha _ _ => ?_
      refine (ih.eval (h.calls ih (.binaryRight ha))).bind fun b m₂ _ hk _ => safe_read ?_
      exact safe_orFail hk.ready fun _ => trivial
  | logical op left right =>
      refine (ih.eval (h.calls ih .logicalLeft)).bind fun a m₁ ha _ _ => ?_
      refine (ih.eval (h.calls ih (.logicalRight ha))).bind fun b m₂ _ hk _ => ?_
      exact safe_orFail hk.ready fun _ => trivial
  | ternary test whenTrue whenFalse =>
      refine (ih.eval (h.calls ih .ternaryTest)).bind fun a m₁ ha _ _ => ?_
      split
      · rename_i htrue
        exact ih.eval (h.calls ih (.ternaryTrue ha htrue))
      · rename_i hfalse
        exact ih.eval (h.calls ih (.ternaryFalse ha (Bool.eq_false_iff.mpr hfalse)))
  | var id name => exact (h.calls ih .var).lookUp.widen fun _ hD => hD
  | this id line => exact (h.calls ih .this).lookUp.widen fun _ hD => hD
  | assign id name value =>
      refine (ih.eval (h.calls ih .assignValue)).bind fun a m₁ ha _ _ => ?_
      refine (h.calls ih (.assign ha)).assign.bind fun _ m₂ _ hk₂ _ => ?_
      exact safe_pure hk₂.ready trivial
  | update id name op operand =>
      refine (ih.eval (h.calls ih .updateOperand)).bind fun a m₁ ha _ _ => ?_
      refine (h.calls ih (.updateOld ha)).lookUp.bind fun old m₂ hold hk _ => safe_read ?_
      cases hnew : applyBinary m₂.heap (updateKind op.kind) op.lexeme old a with
      | error fault => exact safe_fail hk.ready
      | ok new =>
          refine (h.calls ih (.updateNew ha hold hnew)).assign.bind fun _ m₃ _ hk₃ _ => ?_
          exact safe_pure hk₃.ready trivial
  | array items =>
      refine (ih.evalAll (h.calls ih .array)).bind fun values m₁ _ hk _ => ?_
      exact safe_newArray hk.ready
  | index target line position =>
      refine (ih.eval (h.calls ih .indexPosition)).bind fun a m₁ ha _ _ => ?_
      refine (ih.eval (h.calls ih (.indexTarget ha))).bind fun b m₂ _ hk _ => safe_read ?_
      exact safe_orFail hk.ready fun _ => trivial
  | call callee line args =>
      refine (ih.eval (h.calls ih .callee)).bind fun f m₁ hf _ _ => ?_
      refine (ih.evalAll (h.calls ih (.arguments hf))).bind fun values m₂ hargs _ _ => ?_
      exact ih.call (h.calls ih (.call hf hargs))
  | get object name =>
      refine (ih.eval (h.calls ih .get)).bind fun a m₁ _ hk _ => ?_
      exact safe_property hk.ready
  | set object name value =>
      refine (ih.eval (h.calls ih .setObject)).bind fun a m₁ ha hk _ => ?_
      cases a with
      | object id =>
          refine (ih.eval (h.calls ih (.setValue ha))).bind fun b m₂ _ hk₂ _ => ?_
          refine (safe_setField hk₂.ready).bind fun _ m₃ _ hk₃ _ => ?_
          exact safe_pure hk₃.ready trivial
      | null | bool | number | string | array | function | native | classRef =>
          exact safe_fail hk.ready

theorem evaluateAll_succ_safe (ih : StepsSafe L steps) {es : List Expr}
    (h : Point.Fits L ⟨steps + 1, .evalAll es, m⟩) :
    Safe L D (fun _ _ => True) (evaluateAll (steps + 1) es) m := by
  cases es with
  | nil => exact safe_pure h.ready trivial
  | cons e es =>
      unfold evaluateAll
      refine (ih.eval (h.calls ih .firstValue)).bind fun a m₁ ha _ _ => ?_
      refine (ih.evalAll (h.calls ih (.otherValues ha))).bind fun values m₂ _ hk _ => ?_
      exact safe_pure hk.ready trivial

theorem call_succ_safe (ih : StepsSafe L steps) {callee : Value} {args : List Value} {line : Nat}
    (h : Point.Fits L ⟨steps + 1, .call callee args line, m⟩) :
    Safe L D (fun _ _ => True) (call (steps + 1) callee args line) m := by
  unfold call
  apply safe_read
  cases harity : m.heap.arity? callee with
  | none => exact safe_fail h.ready
  | some arity =>
      simp only
      split
      · exact safe_fail h.ready
      · rename_i hlen
        rw [Decidable.not_not] at hlen
        exact ih.callWith (h.calls ih (.callWith (hlen ▸ harity)))

theorem callWith_succ_safe (ih : StepsSafe L steps) {callee : Value} {args : List Value} {line : Nat}
    (h : Point.Fits L ⟨steps + 1, .callWith callee args line, m⟩) :
    Safe L D (fun _ _ => True) (callWith (steps + 1) callee args line) m := by
  unfold callWith
  have hm := h.ready
  cases callee with
  | native id => exact safe_callNative hm
  | function id => exact safe_read (ih.invoke (h.calls ih .invoke))
  | classRef id =>
      refine safe_newObject hm (safe_read ?_)
      have hm₁ : Ready L { m with heap := m.heap.addObject ⟨id, []⟩ } :=
        (kept_newObject (D := D) hm).ready
      split
      · rename_i method hmethod
        refine (safe_bindMethod hm₁ (hm₁.method hmethod)).bind fun bound m₂ hbound _ _ => ?_
        refine (ih.invoke (h.calls ih (.construct rfl hmethod hbound))).bind fun _ m₃ _ hk _ => ?_
        exact safe_pure hk.ready trivial
      · exact safe_pure hm₁ trivial
  | null | bool | number | string | array | object => exact safe_fail hm

theorem invoke_succ_safe (ih : StepsSafe L steps) {f : Function} {args : List Value}
    (h : Point.Fits L ⟨steps + 1, .invoke f args, m⟩) :
    Safe L D (fun _ _ => True) (invoke (steps + 1) f args) m := by
  unfold invoke
  obtain ⟨Γ, hm, _, hf, hlen⟩ := id h
  refine safe_newScope hm ((Point.safe_body ih hm hf hlen rfl).bind fun flow m₂ hbody hk _ => ?_)
  split
  · rename_i hinit
    obtain ⟨_, hm₂, _, hthis⟩ := h.calls ih (.readThis rfl hbody hinit)
    exact safe_readThis hm₂ hthis fun _ => trivial
  · cases flow with
    | returned value => exact safe_pure hk.ready trivial
    | normal => exact safe_pure hk.ready trivial

theorem execute_succ_safe (ih : StepsSafe L steps) {s : Stmt} {Γ : ScopeStack}
    (h : Point.FitsIn L Γ ⟨steps + 1, .exec s, m⟩) :
    Safe L (Point.Adds ⟨steps + 1, .exec s, m⟩)
      (fun flow m' => flow = .normal → Covers L.strict m'.heap m'.current (s.scopesAfter Γ))
      (execute (steps + 1) s) m := by
  unfold execute
  have hm := h.ready
  have hc := h.covers
  cases s with
  | expr e =>
      refine (ih.eval (h.calls ih .expr)).bind fun a m₁ _ hk _ => ?_
      exact safe_pure hk.ready fun _ => hk.covers hc
  | print e =>
      refine (ih.eval (h.calls ih .print)).bind fun a m₁ _ hk _ => safe_read ?_
      refine (safe_write hk.ready).bind fun _ m₂ _ hk₂ _ => ?_
      exact safe_pure hk₂.ready fun _ => (hk.trans hk₂).covers hc
  | var name init =>
      have hadds : m.current = globalScope →
          Point.Adds ⟨steps + 1, .exec (.var name init), m⟩ name.name := Point.adds_of_declared rfl
      cases init with
      | none =>
          refine (safe_define (Q := fun _ m' => Covers L.strict m'.heap m'.current (Γ.introduce name))
            hm hadds (hc.define hm.heap.inhabited name _)).bind
            fun _ m₁ _ hk hc₁ => ?_
          exact safe_pure hk.ready fun _ => hc₁
      | some init =>
          refine (ih.eval (h.calls ih .init)).bind fun a m₁ _ hk _ => ?_
          have hc₁ := (hk.covers hc).define hk.ready.heap.inhabited name a
          refine (safe_define (Q := fun _ m' => Covers L.strict m'.heap m'.current (Γ.introduce name))
            hk.ready (fun hglobal => hadds (hk.current ▸ hglobal)) hc₁).bind fun _ m₂ _ hk₂ hc₂ => ?_
          exact safe_pure hk₂.ready fun _ => hc₂
  | block body =>
      have hlocal : m.heap.scopes.size ≠ globalScope := Nat.ne_of_gt hm.heap.inhabited
      have hbody : Safe L (Point.Adds ⟨steps + 1, .exec (.block body), m⟩) (fun _ _ => True) _ _ :=
        (ih.execAll (h.calls ih (.block rfl))).widen fun _ hadds => absurd hadds.1 hlocal
      refine .step rfl (.refl hm) (safe_newScope hm ((safe_inScope hbody).mono (fun _ hD => hD) ?_))
      exact fun flow m₂ hk _ _ => hk.covers ((kept_newScope (D := fun _ => False) hm).covers hc)
  | ifElse test whenTrue whenFalse =>
      have hafter : ∀ m' : Machine, Covers L.strict m'.heap m'.current Γ →
          Covers L.strict m'.heap m'.current ((Stmt.ifElse test whenTrue whenFalse).scopesAfter Γ) :=
        fun m' hc' => hc'.relax (fun hstrict => h.task.scopesAfter_ifElse hstrict)
          (Stmt.length_scopesAfter _ _)
      refine (ih.eval (h.calls ih .ifTest)).bind fun a m₁ ha hk _ => ?_
      split
      · rename_i htrue
        obtain ⟨Γ₁, h₁⟩ := h.calls ih (.ifTrue ha htrue)
        refine (ih.exec h₁).mono (fun _ hadds => hadds.step (.ifTrue ha htrue) hk.current) ?_
        exact fun _ m₂ hk₂ _ _ => hafter m₂ (hk₂.covers (hk.covers hc))
      · rename_i hfalse
        have hfalse : a.isTruthy = false := Bool.eq_false_iff.mpr hfalse
        cases whenFalse with
        | none => exact safe_pure hk.ready fun _ => hafter m₁ (hk.covers hc)
        | some whenFalse =>
            obtain ⟨Γ₁, h₁⟩ := h.calls ih (.ifFalse ha hfalse)
            refine (ih.exec h₁).mono (fun _ hadds => hadds.step (.ifFalse ha hfalse) hk.current) ?_
            exact fun _ m₂ hk₂ _ _ => hafter m₂ (hk₂.covers (hk.covers hc))
  | whileLoop test body =>
      refine (ih.loop (h.calls ih .whileLoop)).mono (fun _ hadds => hadds.step .whileLoop rfl) ?_
      exact fun _ m₁ hk _ _ => (hk.covers hc).relax h.task.2.2 (Stmt.length_scopesAfter _ _)
  | function decl =>
      refine (safe_declareFunction hm hc h.task fun hglobal =>
        Point.adds_of_declared rfl hglobal).bind fun _ m₁ _ hk hc₁ => ?_
      exact safe_pure hk.ready fun _ => hc₁
  | classDecl name methods =>
      refine (safe_declareClass hm hc h.task fun hglobal =>
        Point.adds_of_declared rfl hglobal).bind fun _ m₁ _ hk hc₁ => ?_
      exact safe_pure hk.ready fun _ => hc₁
  | ret line value =>
      cases value with
      | none => exact safe_pure hm nofun
      | some value =>
          refine (ih.eval (h.calls ih .ret)).bind fun a m₁ _ hk _ => ?_
          exact safe_pure hk.ready nofun

theorem executeAll_succ_safe (ih : StepsSafe L steps) {ss : List Stmt}
    (h : Point.Fits L ⟨steps + 1, .execAll ss, m⟩) :
    Safe L (Point.Adds ⟨steps + 1, .execAll ss, m⟩) (fun _ _ => True) (executeAll (steps + 1) ss) m := by
  cases ss with
  | nil => exact safe_pure h.ready trivial
  | cons s ss =>
      unfold executeAll
      obtain ⟨Γ₁, h₁⟩ := h.calls ih .firstStmt
      refine ((ih.exec h₁).widen fun _ hadds => hadds.step .firstStmt rfl).bind
        fun flow m₁ hs hk _ => ?_
      cases flow with
      | returned value => exact safe_pure hk.ready trivial
      | normal =>
          exact (ih.execAll (h.calls ih (.otherStmts hs))).widen
            fun _ hadds => hadds.step (.otherStmts hs) hk.current

theorem loop_succ_safe (ih : StepsSafe L steps) {test : Expr} {body : Stmt}
    (h : Point.Fits L ⟨steps + 1, .loop test body, m⟩) :
    Safe L (Point.Adds ⟨steps + 1, .loop test body, m⟩) (fun _ _ => True)
      (loop (steps + 1) test body) m := by
  unfold loop
  refine (ih.eval (h.calls ih .loopTest)).bind fun a m₁ ha hk _ => ?_
  split
  · rename_i htrue
    obtain ⟨Γ₁, h₁⟩ := h.calls ih (.loopBody ha htrue)
    refine ((ih.exec h₁).widen fun _ hadds => hadds.step (.loopBody ha htrue) hk.current).bind
      fun flow m₂ hs hk₂ _ => ?_
    cases flow with
    | returned value => exact safe_pure hk₂.ready trivial
    | normal =>
        exact (ih.loop (h.calls ih (.loopAgain ha htrue hs))).widen
          fun _ hadds => hadds.step (.loopAgain ha htrue hs) (hk₂.current.trans hk.current)
  · exact safe_pure hk.ready trivial

theorem executeTop_succ_safe (ih : StepsSafe L steps) {p : Program}
    (h : Point.Fits L ⟨steps + 1, .top p, m⟩) :
    Safe L (Point.Adds ⟨steps + 1, .top p, m⟩) (fun _ _ => True) (executeTop (steps + 1) p) m := by
  cases p with
  | nil => exact safe_pure h.ready trivial
  | cons s p =>
      unfold executeTop
      obtain ⟨Γ₁, h₁⟩ := h.calls ih .topFirst
      refine ((ih.exec h₁).widen fun _ hadds => hadds.step .topFirst rfl).bind
        fun flow m₁ hs hk _ => ?_
      exact (ih.top (h.calls ih (.topOthers hs))).widen
        fun _ hadds => hadds.step (.topOthers hs) hk.current

end Succ

/-- **Every task that fits is safe.** -/
theorem stepsSafe (L : Layout) : ∀ steps, StepsSafe L steps
  | 0 =>
      { eval := fun h => safe_exhausted h.ready
        evalAll := fun h => safe_exhausted h.ready
        call := fun h => safe_exhausted h.ready
        callWith := fun h => safe_exhausted h.ready
        invoke := fun h => safe_exhausted h.ready
        exec := fun h => safe_exhausted h.ready
        execAll := fun h => safe_exhausted h.ready
        loop := fun h => safe_exhausted h.ready
        top := fun h => safe_exhausted h.ready }
  | steps + 1 =>
      have ih := stepsSafe L steps
      { eval := evaluate_succ_safe ih
        evalAll := evaluateAll_succ_safe ih
        call := call_succ_safe ih
        callWith := callWith_succ_safe ih
        invoke := invoke_succ_safe ih
        exec := execute_succ_safe ih
        execAll := executeAll_succ_safe ih
        loop := loop_succ_safe ih
        top := executeTop_succ_safe ih }

namespace Point

/-- Only a point with steps left comes to other points. -/
theorem Calls.steps_eq {P Q : Point} (h : P.Calls Q) : P.steps = Q.steps + 1 := by
  cases h <;> rfl

/-- **Every point of a run fits.** -/
theorem Fits.visits {L : Layout} {P Q : Point} (h : P.Fits L) (hvisit : P.Visits Q) : Q.Fits L := by
  induction hvisit with
  | refl => exact h
  | @step P Q _ hcall _ ih =>
      obtain ⟨steps, task, m⟩ := P
      obtain rfl : steps = Q.steps + 1 := hcall.steps_eq
      exact ih (h.calls (stepsSafe L Q.steps) hcall)

end Point

end Scriptlet
