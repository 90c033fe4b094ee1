import Scriptlet.Proofs.Run.Upheld

/-!
# Runs keep the scopes of `this`

A framed task is made of framed tasks, and none of them changes a scope of `this`.

* `evaluate_traced`, …, `executeTop_traced` — one lemma for each kind of task.
* `Point.Steadies L P` — the task of `P` upholds the machine and is made of framed tasks.

Principal results: `Point.Framed.steadies` — so does every framed task; `Point.Framed.visits` — every point of a run is
framed, and what holds there is held to the end of the run.
-/

set_option autoImplicit false

namespace Scriptlet

open Point

/-! ## Tasks -/

/-- The points of an action that starts with the value of an expression. -/
def BeforeEval (steps : Nat) (e : Expr) (m : Machine) (V : Value → Machine → Point → Prop) : Point → Prop :=
  Before ⟨steps, .eval e, m⟩ (evaluate steps e) m V

section Succ

variable {L : Layout} {F : Frame} {steps : Nat} {m : Machine}

theorem Traced.eval {α : Type} (ih : StepsUphold L steps) {e : Expr} {V : Value → Machine → Point → Prop}
    {f : Value → Exec α} (hP : Framed L ⟨steps, .eval e, m⟩)
    (hf : ∀ a m₁, evaluate steps e m = .ok a m₁ → Upheld L m m₁ → Traced L (V a m₁) (f a) m₁) :
    Traced L (BeforeEval steps e m V) (evaluate steps e >>= f) m :=
  .bind hP (ih hP) rfl hf

/-- The last task of another one. -/
theorem Traced.last {α : Type} (ih : StepsUphold L steps) {task : Task} {x : Exec α}
    (hP : Framed L ⟨steps, task, m⟩) (hx : leaves ⟨steps, task, m⟩ = x.leaves m) :
    Traced L (· = ⟨steps, task, m⟩) x m :=
  .task hP (hx ▸ ih hP) (congrArg Machine.heap hx)

/-- Two operands one after the other, and then no further task. -/
theorem Traced.operands {α : Type} (ih : StepsUphold L steps) {task : Task} {first second : Expr}
    {f : Value → Value → Exec α} (h : FramedIn L F ⟨steps + 1, task, m⟩) (hfirst : F.AdmitsAll L first.references)
    (hsecond : F.AdmitsAll L second.references)
    (hf : ∀ a b m₂, Steady L m₂ → Upheld L m₂ ((f a b).leaves m₂)) :
    Traced L (BeforeEval steps first m fun _ m₁ => BeforeEval steps second m₁ fun _ _ _ => False)
      (evaluate steps first >>= fun a => evaluate steps second >>= f a) m := by
  have hP : Framed L ⟨steps, .eval first, m⟩ := h.at (.refl h.steady) hfirst
  refine .eval ih hP fun a m₁ _ hk => ?_
  have hQ : Framed L ⟨steps, .eval second, m₁⟩ := h.at hk hsecond
  exact .eval ih hQ fun b m₂ _ hk₂ => .nothing (hf a b m₂ hk₂.steady)

theorem evaluate_traced (ih : StepsUphold L steps) {e : Expr} (h : FramedIn L F ⟨steps + 1, .eval e, m⟩) :
    Traced L (Calls ⟨steps + 1, .eval e, m⟩) (evaluate (steps + 1) e) m := by
  have hm := h.steady
  have ht : F.AdmitsAll L e.references := h.task
  have here : ∀ {task : Task}, task.Framed L F m.heap → Framed L ⟨steps, task, m⟩ := fun htask => h.at (.refl hm) htask
  unfold evaluate
  cases e with
  | lit value =>
      refine (Traced.nothing (.refl hm)).mono fun R hcall => ?_
      cases hcall
  | group inner =>
      have hP : Framed L ⟨steps, .eval inner, m⟩ := here ht
      refine (Traced.last ih hP rfl).mono fun R hcall => ?_
      cases hcall
      rfl
  | unary op operand =>
      refine (Traced.eval ih (e := operand) (here ht) fun a m₁ _ hk => .nothing (upheld_orFail hk.steady _ _)).mono
        fun R hcall => ?_
      cases hcall
      exact .inl rfl
  | binary op left right =>
      have hleft : F.AdmitsAll L left.references := ht.sub fun r hr => by simp [Expr.references, hr]
      have hright : F.AdmitsAll L right.references := ht.sub fun r hr => by simp [Expr.references, hr]
      refine .mono (.operands ih h hleft hright fun a b m₂ hm₂ => upheld_read (upheld_orFail hm₂ _ _))
        fun R hcall => ?_
      cases hcall with
      | binaryLeft => exact .inl rfl
      | binaryRight hl => exact .inr ⟨_, _, hl, .inl rfl⟩
  | logical op left right =>
      have hleft : F.AdmitsAll L left.references := ht.sub fun r hr => by simp [Expr.references, hr]
      have hright : F.AdmitsAll L right.references := ht.sub fun r hr => by simp [Expr.references, hr]
      refine .mono (.operands ih h hleft hright fun a b m₂ hm₂ => upheld_orFail hm₂ _ _) fun R hcall => ?_
      cases hcall with
      | logicalLeft => exact .inl rfl
      | logicalRight hl => exact .inr ⟨_, _, hl, .inl rfl⟩
  | ternary test whenTrue whenFalse =>
      refine .mono (V := BeforeEval steps test m fun a m₁ R =>
        R = ⟨steps, .eval (if a.isTruthy then whenTrue else whenFalse), m₁⟩) ?_ fun R hcall => ?_
      · refine .eval ih (here (ht.sub fun r hr => by simp [Expr.references, hr])) fun a m₁ _ hk => ?_
        split
        · exact .last ih (h.at hk (ht.sub fun r hr => by simp [Expr.references, hr])) rfl
        · exact .last ih (h.at hk (ht.sub fun r hr => by simp [Expr.references, hr])) rfl
      · cases hcall with
        | ternaryTest => exact .inl rfl
        | ternaryTrue hl htrue => exact .inr ⟨_, _, hl, by simp [htrue]⟩
        | ternaryFalse hl hfalse => exact .inr ⟨_, _, hl, by simp [hfalse]⟩
  | var id name =>
      have hP : Framed L ⟨steps, .lookUp id name, m⟩ := here trivial
      refine (Traced.last ih hP rfl).mono fun R hcall => ?_
      cases hcall
      rfl
  | this id line =>
      have hP : Framed L ⟨steps, .lookUp id ⟨thisName, line⟩, m⟩ := here trivial
      refine (Traced.last ih hP rfl).mono fun R hcall => ?_
      cases hcall
      rfl
  | assign id name value =>
      refine .mono (V := BeforeEval steps value m fun a m₁ =>
        Before ⟨steps, .assign id name a, m₁⟩ (Exec.assign id name a) m₁ fun _ _ _ => False) ?_ fun R hcall => ?_
      · refine .eval ih (here (ht.sub fun r hr => by simp [Expr.references, hr])) fun a m₁ _ hk => ?_
        have hQ : Framed L ⟨steps, .assign id name a, m₁⟩ := h.at hk (ht.assigns .write (by simp [Expr.references]) (by decide))
        exact .bind hQ (ih hQ) rfl fun _ m₂ _ hk₂ => .nothing (.refl hk₂.steady)
      · cases hcall with
        | assignValue => exact .inl rfl
        | assign hl => exact .inr ⟨_, _, hl, .inl rfl⟩
  | update id name op operand =>
      refine .mono (V := BeforeEval steps operand m fun a m₁ =>
        Before ⟨steps, .lookUp id name, m₁⟩ (Exec.lookUp id name) m₁ fun old m₂ R =>
          ∃ new, applyBinary m₂.heap (updateKind op.kind) op.lexeme old a = .ok new ∧
            R = ⟨steps, .assign id name new, m₂⟩) ?_ fun R hcall => ?_
      · refine .eval ih (here (ht.sub fun r hr => by simp [Expr.references, hr])) fun a m₁ _ hk => ?_
        have hQ : Framed L ⟨steps, .lookUp id name, m₁⟩ := h.at hk trivial
        refine .bind hQ (ih hQ) rfl fun old m₂ _ hk₂ => .read ?_
        cases hnew : applyBinary m₂.heap (updateKind op.kind) op.lexeme old a with
        | error fault =>
            refine (Traced.nothing (.refl hk₂.steady)).mono fun R hR => ?_
            obtain ⟨new, hnew', -⟩ := hR
            cases hnew'
        | ok new =>
            have hS : Framed L ⟨steps, .assign id name new, m₂⟩ :=
              h.at (hk.trans hk₂) (ht.assigns .update (by simp [Expr.references]) (by decide))
            refine .mono (V := Before ⟨steps, .assign id name new, m₂⟩ (Exec.assign id name new) m₂ fun _ _ _ => False)
              ?_ fun R hR => ?_
            · exact .bind hS (ih hS) rfl fun _ m₃ _ hk₃ => .nothing (.refl hk₃.steady)
            · obtain ⟨new', hnew', rfl⟩ := hR
              cases hnew'
              exact .inl rfl
      · cases hcall with
        | updateOperand => exact .inl rfl
        | updateOld hl => exact .inr ⟨_, _, hl, .inl rfl⟩
        | updateNew hl hold hnew => exact .inr ⟨_, _, hl, .inr ⟨_, _, hold, _, hnew, rfl⟩⟩
  | array items =>
      have hP : Framed L ⟨steps, .evalAll items, m⟩ := here ht
      refine .mono (V := Before ⟨steps, .evalAll items, m⟩ (evaluateAll steps items) m fun _ _ _ => False) ?_
        fun R hcall => ?_
      · exact .bind hP (ih hP) rfl fun values m₁ _ hk => .nothing (Upheld.newArray hk.steady values)
      · cases hcall
        exact .inl rfl
  | index target line position =>
      have hposition : F.AdmitsAll L position.references := ht.sub fun r hr => by simp [Expr.references, hr]
      have htarget : F.AdmitsAll L target.references := ht.sub fun r hr => by simp [Expr.references, hr]
      refine .mono (.operands ih h hposition htarget fun a b m₂ hm₂ => upheld_read (upheld_orFail hm₂ _ _))
        fun R hcall => ?_
      cases hcall with
      | indexPosition => exact .inl rfl
      | indexTarget hl => exact .inr ⟨_, _, hl, .inl rfl⟩
  | call callee line args =>
      refine .mono (V := BeforeEval steps callee m fun f m₁ =>
        Before ⟨steps, .evalAll args, m₁⟩ (evaluateAll steps args) m₁ fun values m₂ R =>
          R = ⟨steps, .call f values line, m₂⟩) ?_ fun R hcall => ?_
      · refine .eval ih (here (ht.sub fun r hr => by simp [Expr.references, hr])) fun f m₁ _ hk => ?_
        have hQ : Framed L ⟨steps, .evalAll args, m₁⟩ :=
          h.at hk (Frame.AdmitsAll.sub ht fun r hr => by simp [Expr.references, hr])
        refine .bind hQ (ih hQ) rfl fun values m₂ _ hk₂ => ?_
        have hS : Framed L ⟨steps, .call f values line, m₂⟩ := h.at (hk.trans hk₂) trivial
        exact .last ih hS rfl
      · cases hcall with
        | callee => exact .inl rfl
        | arguments hf => exact .inr ⟨_, _, hf, .inl rfl⟩
        | call hf hargs => exact .inr ⟨_, _, hf, .inr ⟨_, _, hargs, rfl⟩⟩
  | get object name =>
      refine (Traced.eval ih (e := object) (here ht) fun a m₁ _ hk => .nothing (upheld_property hk.steady _ _)).mono
        fun R hcall => ?_
      cases hcall
      exact .inl rfl
  | set object name value =>
      refine .mono (V := BeforeEval steps object m fun a m₁ R => (∃ o, a = .object o) ∧
        BeforeEval steps value m₁ (fun _ _ _ => False) R) ?_ fun R hcall => ?_
      · refine .eval ih (here (ht.sub fun r hr => by simp [Expr.references, hr])) fun a m₁ _ hk => ?_
        cases a with
        | object o =>
            refine .mono (V := BeforeEval steps value m₁ fun _ _ _ => False) ?_ fun R hR => hR.2
            refine .eval ih (h.at hk (ht.sub fun r hr => by simp [Expr.references, hr])) fun b m₂ _ hk₂ => ?_
            have hk₃ := Upheld.setField hk₂.steady o name.name b
            exact .step rfl hk₃ (.nothing (.refl hk₃.steady))
        | null | bool | number | string | array | function | native | classRef =>
            refine (Traced.nothing (.refl hk.steady)).mono fun R hR => ?_
            obtain ⟨⟨o, ho⟩, -⟩ := hR
            cases ho
      · cases hcall with
        | setObject => exact .inl rfl
        | setValue hl => exact .inr ⟨_, _, hl, ⟨_, rfl⟩, .inl rfl⟩

theorem evaluateAll_traced (ih : StepsUphold L steps) {es : List Expr} (h : FramedIn L F ⟨steps + 1, .evalAll es, m⟩) :
    Traced L (Calls ⟨steps + 1, .evalAll es, m⟩) (evaluateAll (steps + 1) es) m := by
  have ht : F.AdmitsAll L (Expr.referencesAll es) := h.task
  cases es with
  | nil =>
      unfold evaluateAll
      refine (Traced.nothing (.refl h.steady)).mono fun R hcall => ?_
      cases hcall
  | cons e es =>
      unfold evaluateAll
      refine .mono (V := BeforeEval steps e m fun _ m₁ =>
        Before ⟨steps, .evalAll es, m₁⟩ (evaluateAll steps es) m₁ fun _ _ _ => False) ?_ fun R hcall => ?_
      · have hP : Framed L ⟨steps, .eval e, m⟩ :=
          h.at (.refl h.steady) (Frame.AdmitsAll.sub ht fun r hr => by simp [Expr.referencesAll, hr])
        refine .eval ih hP fun a m₁ _ hk => ?_
        have hQ : Framed L ⟨steps, .evalAll es, m₁⟩ :=
          h.at hk (Frame.AdmitsAll.sub ht fun r hr => by simp [Expr.referencesAll, hr])
        exact .bind hQ (ih hQ) rfl fun values m₂ _ hk₂ => .nothing (.refl hk₂.steady)
      · cases hcall with
        | firstValue => exact .inl rfl
        | otherValues hl => exact .inr ⟨_, _, hl, .inl rfl⟩

theorem call_traced (ih : StepsUphold L steps) {callee : Value} {args : List Value} {line : Nat}
    (h : FramedIn L F ⟨steps + 1, .call callee args line, m⟩) :
    Traced L (Calls ⟨steps + 1, .call callee args line, m⟩) (call (steps + 1) callee args line) m := by
  unfold call
  have hP : Framed L ⟨steps, .callWith callee args line, m⟩ := h.at (.refl h.steady) trivial
  refine .read ?_
  cases harity : m.heap.arity? callee with
  | none =>
      refine (Traced.nothing (.refl h.steady)).mono fun R hcall => ?_
      cases hcall with
      | callWith harity' =>
          rw [harity] at harity'
          cases harity'
  | some arity =>
      simp only
      split
      · rename_i hlen
        refine (Traced.nothing (.refl h.steady)).mono fun R hcall => ?_
        cases hcall with
        | callWith harity' =>
            rw [harity] at harity'
            exact hlen (Option.some.inj harity').symm
      · refine (Traced.last ih hP rfl).mono fun R hcall => ?_
        cases hcall
        rfl

theorem callWith_traced (ih : StepsUphold L steps) {callee : Value} {args : List Value} {line : Nat}
    (h : FramedIn L F ⟨steps + 1, .callWith callee args line, m⟩) :
    Traced L (Calls ⟨steps + 1, .callWith callee args line, m⟩) (callWith (steps + 1) callee args line) m := by
  unfold callWith
  have hm := h.steady
  cases callee with
  | native id =>
      refine (Traced.nothing (upheld_callNative hm id args line)).mono fun R hcall => ?_
      cases hcall
  | function id =>
      have hP : Framed L ⟨steps, .invoke (m.heap.function id) args, m⟩ := h.at (.refl hm) (hm.heap.functions id)
      refine .read ((Traced.last ih hP rfl).mono fun R hcall => ?_)
      cases hcall
      rfl
  | classRef id =>
      have hk₁ : Upheld L m { m with heap := m.heap.addObject ⟨id, []⟩ } := .newObject hm _
      refine .step rfl hk₁ (.read ?_)
      cases hmethod : ((m.heap.addObject ⟨id, []⟩).cls id).method? constructorName with
      | none =>
          refine (Traced.nothing (.refl hk₁.steady)).mono fun R hcall => ?_
          cases hcall with
          | construct hobject hmethod' hbound =>
              cases hobject
              rw [hmethod] at hmethod'
              cases hmethod'
      | some method =>
          obtain ⟨bound, m₂, hbound⟩ : ∃ bound m₂, Exec.bindMethod method m.heap.objects.size
              { m with heap := m.heap.addObject ⟨id, []⟩ } = .ok bound m₂ := ⟨_, _, rfl⟩
          obtain ⟨hk₂, hf⟩ := upheld_bindMethod hk₁.steady (hk₁.steady.method hmethod) hbound
          have hQ : Framed L ⟨steps, .invoke bound args, m₂⟩ := h.at (hk₁.trans hk₂) hf
          refine .step hbound hk₂ ?_
          refine .mono (.bind hQ (ih hQ) rfl fun _ m₃ _ hk₃ => .nothing (.refl hk₃.steady)) fun R hcall => ?_
          cases hcall with
          | construct hobject hmethod' hbound' =>
              cases hobject
              rw [hmethod] at hmethod'
              cases hmethod'
              rw [hbound] at hbound'
              cases hbound'
              exact .inl rfl
  | null | bool | number | string | array | object =>
      refine (Traced.nothing (.refl hm)).mono fun R hcall => ?_
      cases hcall

/-- The body of a function is framed by the scope of its arguments. -/
theorem framed_body {f : Function} {args : List Value} {scope : ScopeId} {m₁ : Machine} (steps : Nat)
    (hm : Steady L m) (hf : FunctionFramed L m.heap f)
    (hrun : Exec.newScope f.closure (.ofParameters f.decl.params args) m = .ok scope m₁) :
    Upheld L m m₁ ∧ Framed L ⟨steps, .execAll f.decl.body, { m₁ with current := scope }⟩ := by
  cases hrun
  obtain ⟨G, hc, hd⟩ := hf.chained
  have hparams : (Bindings.ofParameters f.decl.params args).binds thisName = false :=
    binds_ofParameters_of_ne hd.params
  have hpush := hc.push hparams
  have hk : Upheld L m { m with heap := m.heap.addScope ⟨some f.closure, .ofParameters f.decl.params args⟩ } := by
    refine .newScope hm (hc.lt_size hm.heap.global.lt) fun hthis => ?_
    rw [hparams] at hthis
    cases hthis
  exact ⟨hk, _, ⟨hk.steady.heap, hm.table, ⟨by simp [Heap.addScope], hpush.1⟩⟩, hpush, hd.body⟩

theorem invoke_traced (ih : StepsUphold L steps) {f : Function} {args : List Value}
    (h : FramedIn L F ⟨steps + 1, .invoke f args, m⟩) :
    Traced L (Calls ⟨steps + 1, .invoke f args, m⟩) (invoke (steps + 1) f args) m := by
  unfold invoke
  have hf : FunctionFramed L m.heap f := h.task
  obtain ⟨scope, m₁, hrun⟩ : ∃ scope m₁, Exec.newScope f.closure (.ofParameters f.decl.params args) m = .ok scope m₁ :=
    ⟨_, _, rfl⟩
  obtain ⟨hk₁, hP⟩ := framed_body steps h.steady hf hrun
  refine .step hrun hk₁ (.mono (V := Before ⟨steps, .execAll f.decl.body, { m₁ with current := scope }⟩
    (Exec.inScope scope (executeAll steps f.decl.body)) m₁ fun _ m₂ R =>
      f.isInitializer = true ∧ R = ⟨steps, .readThis f.closure, m₂⟩) ?_ fun R hcall => ?_)
  · refine .bind hP (upheld_inScope hk₁.steady (ih hP)) (by rw [Exec.leaves_inScope]; rfl) fun flow m₂ _ hk₂ => ?_
    split
    · rename_i hinit
      have hthis := (hf.held (hk₁.trans hk₂).held).this hinit
      have hQ : Framed L ⟨steps, .readThis f.closure, m₂⟩ := h.at (hk₁.trans hk₂) hthis
      exact (Traced.last ih hQ rfl).mono fun R hR => hR.2
    · rename_i hinit
      refine .mono (V := fun _ => False) (.nothing ?_) fun R hR => hinit hR.1
      cases flow <;> exact .refl hk₂.steady
  · cases hcall with
    | body hrun' =>
        rw [hrun] at hrun'
        cases hrun'
        exact .inl rfl
    | readThis hrun' hbody hinit =>
        rw [hrun] at hrun'
        cases hrun'
        exact .inr ⟨_, _, hbody, hinit, rfl⟩

/-- The statements of a block are framed by its scope. -/
theorem framed_block {body : List Stmt} {scope : ScopeId} {m₁ : Machine}
    (h : FramedIn L F ⟨steps + 1, .exec (.block body), m⟩) (hrun : Exec.newScope m.current [] m = .ok scope m₁) :
    Upheld L m m₁ ∧ Framed L ⟨steps, .execAll body, { m₁ with current := scope }⟩ := by
  cases hrun
  have hk : Upheld L m { m with heap := m.heap.addScope ⟨some m.current, []⟩ } :=
    .newScope h.steady h.steady.current.lt nofun
  have hpush : Chained (m.heap.addScope ⟨some m.current, []⟩) m.heap.scopes.size (false :: F) := h.chained.push rfl
  exact ⟨hk, _, ⟨hk.steady.heap, h.steady.table, ⟨by simp [Heap.addScope], hpush.1⟩⟩, hpush, h.task⟩

theorem execute_traced (ih : StepsUphold L steps) {s : Stmt} (h : FramedIn L F ⟨steps + 1, .exec s, m⟩) :
    Traced L (Calls ⟨steps + 1, .exec s, m⟩) (execute (steps + 1) s) m := by
  have hm := h.steady
  have ht : s.Framed L F := h.task
  have here : ∀ {task : Task}, task.Framed L F m.heap → Framed L ⟨steps, task, m⟩ := fun htask => h.at (.refl hm) htask
  unfold execute
  cases s with
  | expr e =>
      refine .mono (.eval ih (here ht) fun a m₁ _ hk => .nothing (.refl hk.steady)) fun R hcall => ?_
      cases hcall
      exact .inl rfl
  | print e =>
      refine .mono (V := BeforeEval steps e m fun _ _ _ => False) ?_ fun R hcall => ?_
      · refine .eval ih (here ht) fun a m₁ _ hk => .read (.nothing ?_)
        exact (upheld_write hk.steady _).bind fun _ m₂ _ hk₂ => .refl hk₂.steady
      · cases hcall
        exact .inl rfl
  | var name init =>
      cases init with
      | none =>
          refine .mono (.nothing (Upheld.bind (.define hm hm.current ht.1 .null) fun _ m₁ _ hk => .refl hk.steady))
            fun R hcall => ?_
          cases hcall
      | some init =>
          refine .mono (V := BeforeEval steps init m fun _ _ _ => False) ?_ fun R hcall => ?_
          · refine .eval ih (here ht.2) fun a m₁ _ hk => ?_
            exact .nothing (Upheld.bind (.define hk.steady hk.steady.current ht.1 a) fun _ m₂ _ hk₂ => .refl hk₂.steady)
          · cases hcall
            exact .inl rfl
  | block body =>
      obtain ⟨scope, m₁, hrun⟩ : ∃ scope m₁, Exec.newScope m.current [] m = .ok scope m₁ := ⟨_, _, rfl⟩
      obtain ⟨hk₁, hP⟩ := framed_block h hrun
      refine .step rfl (.refl hm) (.step hrun hk₁ ?_)
      refine (Traced.task hP (upheld_inScope hk₁.steady (ih hP)) (by rw [Exec.leaves_inScope]; rfl)).mono
        fun R hcall => ?_
      cases hcall with
      | block hrun' =>
          rw [hrun] at hrun'
          cases hrun'
          rfl
  | ifElse test whenTrue whenFalse =>
      refine .mono (V := BeforeEval steps test m fun a m₁ R => (a.isTruthy = true ∧ R = ⟨steps, .exec whenTrue, m₁⟩) ∨
        (a.isTruthy = false ∧ ∃ s, whenFalse = some s ∧ R = ⟨steps, .exec s, m₁⟩)) ?_ fun R hcall => ?_
      · refine .eval ih (here ht.ifTest) fun a m₁ _ hk => ?_
        split
        · rename_i htrue
          have hQ : Framed L ⟨steps, .exec whenTrue, m₁⟩ := h.at hk ht.ifTrue
          refine (Traced.last ih hQ rfl).mono fun R hR => ?_
          rcases hR with hR | hR
          · exact hR.2
          · rw [htrue] at hR
            cases hR.1
        · rename_i hfalse
          cases whenFalse with
          | none =>
              refine (Traced.nothing (.refl hk.steady)).mono fun R hR => ?_
              rcases hR with hR | ⟨-, s, hs, -⟩
              · exact hfalse hR.1
              · cases hs
          | some whenFalse =>
              have hQ : Framed L ⟨steps, .exec whenFalse, m₁⟩ := h.at hk ht.2.2
              refine (Traced.last ih hQ rfl).mono fun R hR => ?_
              rcases hR with hR | ⟨-, s, hs, hR⟩
              · exact absurd hR.1 hfalse
              · cases hs
                exact hR
      · cases hcall with
        | ifTest => exact .inl rfl
        | ifTrue hl htrue => exact .inr ⟨_, _, hl, .inl ⟨htrue, rfl⟩⟩
        | ifFalse hl hfalse => exact .inr ⟨_, _, hl, .inr ⟨hfalse, _, rfl, rfl⟩⟩
  | whileLoop test body =>
      have hP : Framed L ⟨steps, .loop test body, m⟩ := here ht
      refine (Traced.last ih hP rfl).mono fun R hcall => ?_
      cases hcall
      rfl
  | function decl =>
      have hdeclare := upheld_declareFunction hm h.chained ht.1 ht.2
      refine .mono (.nothing (hdeclare.bind fun _ m₁ _ hk => .refl hk.steady)) fun R hcall => ?_
      cases hcall
  | classDecl name methods =>
      have hdeclare := upheld_declareClass hm h.chained ht.1 ht.2
      refine .mono (.nothing (hdeclare.bind fun _ m₁ _ hk => .refl hk.steady)) fun R hcall => ?_
      cases hcall
  | ret line value =>
      cases value with
      | none =>
          refine (Traced.nothing (.refl hm)).mono fun R hcall => ?_
          cases hcall
      | some value =>
          refine .mono (.eval ih (here ht) fun a m₁ _ hk => .nothing (.refl hk.steady)) fun R hcall => ?_
          cases hcall
          exact .inl rfl

theorem executeAll_traced (ih : StepsUphold L steps) {ss : List Stmt} (h : FramedIn L F ⟨steps + 1, .execAll ss, m⟩) :
    Traced L (Calls ⟨steps + 1, .execAll ss, m⟩) (executeAll (steps + 1) ss) m := by
  have ht : Stmt.FramedAll L F ss := h.task
  cases ss with
  | nil =>
      unfold executeAll
      refine (Traced.nothing (.refl h.steady)).mono fun R hcall => ?_
      cases hcall
  | cons s ss =>
      unfold executeAll
      have hP : Framed L ⟨steps, .exec s, m⟩ := h.at (.refl h.steady) ht.1
      refine .mono (V := Before ⟨steps, .exec s, m⟩ (execute steps s) m fun flow m₁ R =>
        flow = .normal ∧ R = ⟨steps, .execAll ss, m₁⟩) ?_ fun R hcall => ?_
      · refine .bind hP (ih hP) rfl fun flow m₁ _ hk => ?_
        cases flow with
        | normal =>
            have hQ : Framed L ⟨steps, .execAll ss, m₁⟩ := h.at hk ht.2
            exact (Traced.last ih hQ rfl).mono fun R hR => hR.2
        | returned value =>
            refine (Traced.nothing (.refl hk.steady)).mono fun R hR => ?_
            cases hR.1
      · cases hcall with
        | firstStmt => exact .inl rfl
        | otherStmts hs => exact .inr ⟨_, _, hs, rfl, rfl⟩

theorem loop_traced (ih : StepsUphold L steps) {test : Expr} {body : Stmt}
    (h : FramedIn L F ⟨steps + 1, .loop test body, m⟩) :
    Traced L (Calls ⟨steps + 1, .loop test body, m⟩) (loop (steps + 1) test body) m := by
  have ht : (Stmt.whileLoop test body).Framed L F := h.task
  unfold loop
  refine .mono (V := BeforeEval steps test m fun a m₁ R => a.isTruthy = true ∧
    Before ⟨steps, .exec body, m₁⟩ (execute steps body) m₁ (fun flow m₂ R =>
      flow = .normal ∧ R = ⟨steps, .loop test body, m₂⟩) R) ?_ fun R hcall => ?_
  · refine .eval ih (h.at (.refl h.steady) ht.1) fun a m₁ _ hk => ?_
    split
    · have hQ : Framed L ⟨steps, .exec body, m₁⟩ := h.at hk ht.2
      refine .mono (V := Before ⟨steps, .exec body, m₁⟩ (execute steps body) m₁ fun flow m₂ R =>
        flow = .normal ∧ R = ⟨steps, .loop test body, m₂⟩) ?_ fun R hR => hR.2
      refine .bind hQ (ih hQ) rfl fun flow m₂ _ hk₂ => ?_
      cases flow with
      | normal =>
          have hS : Framed L ⟨steps, .loop test body, m₂⟩ := h.at (hk.trans hk₂) ht
          exact (Traced.last ih hS rfl).mono fun R hR => hR.2
      | returned value =>
          refine (Traced.nothing (.refl hk₂.steady)).mono fun R hR => ?_
          cases hR.1
    · rename_i hfalse
      exact (Traced.nothing (.refl hk.steady)).mono fun R hR => hfalse hR.1
  · cases hcall with
    | loopTest => exact .inl rfl
    | loopBody hl htrue => exact .inr ⟨_, _, hl, htrue, .inl rfl⟩
    | loopAgain hl htrue hbody => exact .inr ⟨_, _, hl, htrue, .inr ⟨_, _, hbody, rfl, rfl⟩⟩

theorem executeTop_traced (ih : StepsUphold L steps) {p : Program} (h : FramedIn L F ⟨steps + 1, .top p, m⟩) :
    Traced L (Calls ⟨steps + 1, .top p, m⟩) (executeTop (steps + 1) p) m := by
  have ht : Stmt.FramedAll L F p := h.task
  cases p with
  | nil =>
      unfold executeTop
      refine (Traced.nothing (.refl h.steady)).mono fun R hcall => ?_
      cases hcall
  | cons s p =>
      unfold executeTop
      have hP : Framed L ⟨steps, .exec s, m⟩ := h.at (.refl h.steady) ht.1
      refine .mono (V := Before ⟨steps, .exec s, m⟩ (execute steps s) m fun _ m₁ R => R = ⟨steps, .top p, m₁⟩) ?_
        fun R hcall => ?_
      · refine .bind hP (ih hP) rfl fun flow m₁ _ hk => ?_
        have hQ : Framed L ⟨steps, .top p, m₁⟩ := h.at hk ht.2
        exact .last ih hQ rfl
      · cases hcall with
        | topFirst => exact .inl rfl
        | topOthers hs => exact .inr ⟨_, _, hs, rfl⟩

end Succ

/-! ## Runs -/

namespace Point

/-- The tasks that a task is made of are framed, and what holds after them is held to the end of the task. -/
def Steadies (L : Layout) (P : Point) : Prop :=
  Upheld L P.machine P.leaves ∧ ∀ R, P.Calls R → R.Framed L ∧ R.leaves.heap.Held P.leaves.heap

theorem Framed.steadies_succ {L : Layout} {steps : Nat} {task : Task} {m : Machine} (ih : StepsUphold L steps)
    (h : Framed L ⟨steps + 1, task, m⟩) : Steadies L ⟨steps + 1, task, m⟩ := by
  obtain ⟨F, h⟩ := h
  cases task with
  | eval e => exact ⟨(evaluate_traced ih h).upheld, (evaluate_traced ih h).parts⟩
  | evalAll es => exact ⟨(evaluateAll_traced ih h).upheld, (evaluateAll_traced ih h).parts⟩
  | lookUp id name => exact ⟨upheld_lookUp h.steady id name, fun R hcall => by cases hcall⟩
  | assign id name value => exact ⟨upheld_assign h, fun R hcall => by cases hcall⟩
  | call callee args line => exact ⟨(call_traced ih h).upheld, (call_traced ih h).parts⟩
  | callWith callee args line => exact ⟨(callWith_traced ih h).upheld, (callWith_traced ih h).parts⟩
  | invoke f args => exact ⟨(invoke_traced ih h).upheld, (invoke_traced ih h).parts⟩
  | readThis closure => exact ⟨upheld_readAt h.steady closure 0 thisName, fun R hcall => by cases hcall⟩
  | exec s => exact ⟨(execute_traced ih h).upheld, (execute_traced ih h).parts⟩
  | execAll ss => exact ⟨(executeAll_traced ih h).upheld, (executeAll_traced ih h).parts⟩
  | loop test body => exact ⟨(loop_traced ih h).upheld, (loop_traced ih h).parts⟩
  | top p => exact ⟨(executeTop_traced ih h).upheld, (executeTop_traced ih h).parts⟩

/-- Without steps only the access to a name does something. -/
theorem Framed.upheld_zero {L : Layout} {task : Task} {m : Machine} (h : Framed L ⟨0, task, m⟩) :
    Upheld L m (leaves ⟨0, task, m⟩) := by
  obtain ⟨F, h⟩ := h
  cases task with
  | lookUp id name => exact upheld_lookUp h.steady id name
  | assign id name value => exact upheld_assign h
  | readThis closure => exact upheld_readAt h.steady closure 0 thisName
  | eval | evalAll | call | callWith | invoke | exec | execAll | loop | top => exact .refl h.steady

theorem stepsUphold (L : Layout) : ∀ steps, StepsUphold L steps
  | 0 => fun h => h.upheld_zero
  | steps + 1 => fun h => (h.steadies_succ (stepsUphold L steps)).1

/-- **Every framed task upholds the machine and is made of framed tasks.** -/
theorem Framed.steadies {L : Layout} {P : Point} (h : P.Framed L) : P.Steadies L := by
  obtain ⟨steps, task, m⟩ := P
  cases steps with
  | zero => exact ⟨stepsUphold L 0 h, fun R hcall => by cases hcall⟩
  | succ steps => exact h.steadies_succ (stepsUphold L steps)

/-- **Every point of a run is framed, and what holds there is held to the end of the run.** -/
theorem Framed.visits {L : Layout} {P Q : Point} (h : P.Framed L) (hvisit : P.Visits Q) :
    Q.Framed L ∧ Q.leaves.heap.Held P.leaves.heap := by
  induction hvisit with
  | refl => exact ⟨h, .refl _⟩
  | @step P R _ hcall _ ih =>
      obtain ⟨hR, hheld⟩ := h.steadies.2 R hcall
      exact ⟨(ih hR).1, (ih hR).2.trans hheld⟩

end Point

end Scriptlet
