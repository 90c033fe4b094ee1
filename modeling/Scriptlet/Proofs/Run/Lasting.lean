import Scriptlet.Proofs.Heap.Lasting
import Scriptlet.Proofs.Run.Upheld

/-!
# Everything lasts while a script runs

Whatever a script does, and however it ends, everything in the heap lasts.  The heap stays ordered if it is so at the
start and the values in hand are in it.

* `Exec.Lasting x` — everything in the heap lasts through the action `x`, on any machine.
* `Machine.Sound m` — the heap evolved from one with a root scope and the clock, so it is ordered.
* `Regime.sound` — the regime of sound machines, under which the heap evolves out of what is in it.
* `Point.Sound P` — the machine is sound, and the current scope and the values of the task are in the heap.

Principal results: `Point.Calls.lasts`, `Point.Calls.lasts_rest` — everything lasts from the start of a task to that of
each of its parts, and from the end of each part to that of the task; `Point.Sound.moves`, `Point.Calls.sound` — a sound
task leaves a sound machine and is made of sound tasks.
-/

set_option autoImplicit false

namespace Scriptlet

open Point

/-! ## Any machine -/

/-- Everything in the heap lasts through the action, however it ends. -/
def Exec.Lasting {α : Type} (x : Exec α) : Prop := ∀ m : Machine, m.heap.Lasts (x.leaves m).heap

/-- The regime under which everything lasts; any value and any scope may be used. -/
def Regime.lasting : Regime := .watching fun m m' => m.heap.Lasts m'.heap

theorem Regime.lasting_lawful : Regime.lasting.Lawful where
  refl := fun m => .refl m.heap
  trans := .trans
  value_step := fun _ _ => trivial
  scope_step := fun _ _ => trivial
  plain := fun _ => trivial
  global := fun _ => trivial
  enclosing := fun _ _ _ => trivial
  bound := fun _ _ _ => trivial
  closure := fun _ _ => trivial
  method := fun _ _ _ => trivial
  element := fun _ _ _ => trivial
  cls := fun _ _ => trivial
  field := fun _ _ _ => trivial
  native := fun _ _ => trivial
  switch := fun _ _ => ⟨trivial, .refl _⟩
  take := fun _ _ => ⟨trivial, .refl _⟩
  tick := fun _ => ⟨trivial, .refl _⟩
  define := fun _ _ _ _ => ⟨trivial, .define _ _ _ _⟩
  setField := fun _ _ _ _ => ⟨trivial, .setField _ _ _ _⟩
  addScope := fun _ _ _ => ⟨⟨trivial, .addScope _ _⟩, trivial⟩
  addArray := fun _ _ => ⟨⟨trivial, .addArray _ _⟩, trivial⟩
  addFunction := fun _ _ => ⟨⟨trivial, .addFunction _ _⟩, trivial⟩
  addClass := fun _ _ => ⟨⟨trivial, .addClass _ _⟩, trivial⟩
  addObject := fun _ _ => ⟨⟨trivial, .addObject _ _⟩, trivial⟩

/-- The machine moves to the one that is left. -/
theorem Regime.Keeps.moves {α : Type} {R : Regime} {Q : α → Machine → Prop} {x : Exec α} {m : Machine}
    (h : R.Keeps Q x m) : R.Moves m (x.leaves m) := by
  unfold Regime.Keeps at h
  unfold Exec.leaves
  cases hr : x m with
  | ok a m' =>
      rw [hr] at h
      exact h.1
  | error halt m' =>
      rw [hr] at h
      exact h

namespace Exec

section Lasting

variable {α β : Type} {x : Exec α} {f : α → Exec β} {m m₁ : Machine}

theorem lasting_of_keeps {Q : α → Machine → Prop} (h : ∀ m, Regime.lasting.Keeps Q x m) : x.Lasting :=
  fun m => (h m).moves.step

/-- What is there after the first of two actions is there in the end. -/
theorem lasts_bind (hf : ∀ a, (f a).Lasting) (m : Machine) :
    (x.leaves m).heap.Lasts ((x >>= f).leaves m).heap := by
  cases hx : x m with
  | ok a m₁ =>
      rw [leaves_of_ok hx, leaves_bind_of_ok hx]
      exact hf a m₁
  | error halt m₁ =>
      rw [leaves_bind_of_error hx]
      exact .refl _

/-- What is there in the end of the second of two actions is there in the end. -/
theorem lasts_bind_of_ok {h : Heap} {a : α} (hx : x m = .ok a m₁) (hf : h.Lasts ((f a).leaves m₁).heap) :
    h.Lasts ((x >>= f).leaves m).heap := by
  rwa [leaves_bind_of_ok hx]

theorem Lasting.bind (hx : x.Lasting) (hf : ∀ a, (f a).Lasting) : (x >>= f).Lasting :=
  fun m => (hx m).trans (lasts_bind hf m)

theorem Lasting.of_ok {a : α} (h : x.Lasting) (hx : x m = .ok a m₁) : m.heap.Lasts m₁.heap := by
  have hm := h m
  rwa [leaves_of_ok hx] at hm

theorem Lasting.inScope (scope : ScopeId) (h : x.Lasting) : (Exec.inScope scope x).Lasting := by
  intro m
  rw [leaves_inScope]
  exact h { m with current := scope }

theorem Lasting.pure (a : α) : (Pure.pure a : Exec α).Lasting := fun _ => .refl _

theorem Lasting.fail (line : Nat) (fault : ScriptFault) : (Exec.fail (α := α) line fault).Lasting := fun _ => .refl _

theorem Lasting.orFail (line : Nat) (result : Except ScriptFault α) : (Exec.orFail line result).Lasting := by
  cases result <;> exact fun _ => .refl _

theorem Lasting.read (g : Heap → α) : (Exec.read g).Lasting := fun _ => .refl _

theorem Lasting.setField (id : ObjectId) (name : String) (value : Value) :
    (Exec.change fun h => h.setField id name value).Lasting :=
  fun m => .setField m.heap id name value

theorem Lasting.define (name : String) (value : Value) : (Exec.define name value).Lasting :=
  fun m => .define m.heap m.current name value

theorem Lasting.newArray (items : List Value) : (Exec.newArray items).Lasting := fun m => .addArray m.heap items

theorem Lasting.write (text : String) : (Exec.write text).Lasting :=
  lasting_of_keeps fun _ => Regime.keeps_write Regime.lasting_lawful trivial text

theorem Lasting.readAt (scope : ScopeId) (distance : Nat) (name : String) : (Exec.readAt scope distance name).Lasting :=
  lasting_of_keeps fun _ => Regime.keeps_readAt Regime.lasting_lawful trivial trivial distance name

theorem Lasting.lookUp (id : NodeId) (name : Ident) : (Exec.lookUp id name).Lasting :=
  lasting_of_keeps fun _ => Regime.keeps_lookUp Regime.lasting_lawful trivial trivial id name

theorem Lasting.assign (id : NodeId) (name : Ident) (value : Value) : (Exec.assign id name value).Lasting :=
  lasting_of_keeps fun _ => Regime.keeps_assign (v := value) Regime.lasting_lawful trivial trivial id name trivial

theorem Lasting.property (object : Value) (name : Ident) : (Exec.property object name).Lasting :=
  lasting_of_keeps fun _ => Regime.keeps_property Regime.lasting_lawful trivial trivial name

end Lasting

end Exec

section Tasks

variable (steps : Nat)

theorem evaluate_lasting (e : Expr) : (evaluate steps e).Lasting :=
  Exec.lasting_of_keeps fun _ => (Regime.lasting_lawful.governs steps).eval trivial trivial

theorem evaluateAll_lasting (es : List Expr) : (evaluateAll steps es).Lasting :=
  Exec.lasting_of_keeps fun _ => (Regime.lasting_lawful.governs steps).evalAll trivial trivial

theorem call_lasting (callee : Value) (args : List Value) (line : Nat) : (call steps callee args line).Lasting :=
  Exec.lasting_of_keeps fun _ => (Regime.lasting_lawful.governs steps).call trivial trivial fun _ _ => trivial

theorem callWith_lasting (callee : Value) (args : List Value) (line : Nat) :
    (callWith steps callee args line).Lasting :=
  Exec.lasting_of_keeps fun _ => (Regime.lasting_lawful.governs steps).callWith trivial trivial fun _ _ => trivial

theorem invoke_lasting (f : Function) (args : List Value) : (invoke steps f args).Lasting :=
  Exec.lasting_of_keeps fun _ => (Regime.lasting_lawful.governs steps).invoke trivial trivial fun _ _ => trivial

theorem execute_lasting (s : Stmt) : (execute steps s).Lasting :=
  Exec.lasting_of_keeps fun _ => (Regime.lasting_lawful.governs steps).exec trivial trivial

theorem executeAll_lasting (ss : List Stmt) : (executeAll steps ss).Lasting :=
  Exec.lasting_of_keeps fun _ => (Regime.lasting_lawful.governs steps).execAll trivial trivial

theorem loop_lasting (test : Expr) (body : Stmt) : (loop steps test body).Lasting :=
  Exec.lasting_of_keeps fun _ => (Regime.lasting_lawful.governs steps).loop trivial trivial

theorem executeTop_lasting (p : Program) : (executeTop steps p).Lasting :=
  Exec.lasting_of_keeps fun _ => Regime.lasting_lawful.top steps p trivial trivial

end Tasks

namespace Point

/-- **Everything lasts through every task.** -/
theorem lasts (P : Point) : P.machine.heap.Lasts P.leaves.heap := by
  obtain ⟨steps, task, m⟩ := P
  cases task with
  | eval e => exact evaluate_lasting steps e m
  | evalAll es => exact evaluateAll_lasting steps es m
  | lookUp id name => exact Exec.Lasting.lookUp id name m
  | assign id name value => exact Exec.Lasting.assign id name value m
  | call callee args line => exact call_lasting steps callee args line m
  | callWith callee args line => exact callWith_lasting steps callee args line m
  | invoke f args => exact invoke_lasting steps f args m
  | readThis closure => exact Exec.Lasting.readAt closure 0 thisName m
  | exec s => exact execute_lasting steps s m
  | execAll ss => exact executeAll_lasting steps ss m
  | loop test body => exact loop_lasting steps test body m
  | top p => exact executeTop_lasting steps p m

/-- **Everything lasts up to the start of each part of a task.** -/
theorem Calls.lasts {P Q : Point} (h : P.Calls Q) : P.machine.heap.Lasts Q.machine.heap := by
  cases h with
  | group | unary | binaryLeft | logicalLeft | ternaryTest | var | this | assignValue | updateOperand | array
    | indexPosition | callee | get | setObject | firstValue | callWith | invoke | expr | print | init | ifTest
    | whileLoop | ret | firstStmt | loopTest | topFirst => exact .refl _
  | binaryRight hl | logicalRight hl | ternaryTrue hl _ | ternaryFalse hl _ | assign hl | updateOld hl
    | indexTarget hl | arguments hl | setValue hl | otherValues hl | ifTrue hl _ | ifFalse hl _
    | loopBody hl _ => exact (evaluate_lasting _ _).of_ok hl
  | updateNew hl hold _ => exact ((evaluate_lasting _ _).of_ok hl).trans ((Exec.Lasting.lookUp _ _).of_ok hold)
  | call hf hargs => exact ((evaluate_lasting _ _).of_ok hf).trans ((evaluateAll_lasting _ _).of_ok hargs)
  | construct hobject _ hbound =>
      cases hobject
      cases hbound
      exact (Heap.Lasts.addObject _ _).trans (.addScope _ _)
  | body hscope | block hscope =>
      cases hscope
      exact .addScope _ _
  | readThis hscope hbody _ =>
      cases hscope
      exact (Heap.Lasts.addScope _ _).trans ((Exec.Lasting.inScope _ (executeAll_lasting _ _)).of_ok hbody)
  | loopAgain hl _ hbody => exact ((evaluate_lasting _ _).of_ok hl).trans ((execute_lasting _ _).of_ok hbody)
  | otherStmts hs | topOthers hs => exact (execute_lasting _ _).of_ok hs

end Point

/-! ## The rest of a task -/

section Rest

variable {steps : Nat} {m : Machine} {R : Point}

open Exec (lasts_bind lasts_bind_of_ok Lasting)

theorem evaluate_lasts_rest {e : Expr} (h : Calls ⟨steps + 1, .eval e, m⟩ R) :
    R.leaves.heap.Lasts ((evaluate (steps + 1) e).leaves m).heap := by
  unfold evaluate
  cases h with
  | group | var | this => exact .refl _
  | unary => exact lasts_bind (fun _ => .orFail _ _) m
  | binaryLeft =>
      refine lasts_bind (fun _ => ?_) m
      exact (evaluate_lasting _ _).bind fun _ => (Lasting.read _).bind fun _ => .orFail _ _
  | binaryRight hl => exact lasts_bind_of_ok hl (lasts_bind (fun _ => (Lasting.read _).bind fun _ => .orFail _ _) _)
  | logicalLeft => exact lasts_bind (fun _ => (evaluate_lasting _ _).bind fun _ => .orFail _ _) m
  | logicalRight hl => exact lasts_bind_of_ok hl (lasts_bind (fun _ => .orFail _ _) _)
  | ternaryTest =>
      refine lasts_bind (fun a => ?_) m
      split
      · exact evaluate_lasting _ _
      · exact evaluate_lasting _ _
  | ternaryTrue hl htrue =>
      refine lasts_bind_of_ok hl ?_
      rw [if_pos htrue]
      exact .refl _
  | ternaryFalse hl hfalse =>
      refine lasts_bind_of_ok hl ?_
      rw [if_neg (Bool.eq_false_iff.mp hfalse)]
      exact .refl _
  | assignValue => exact lasts_bind (fun _ => (Lasting.assign _ _ _).bind fun _ => .pure _) m
  | assign hl => exact lasts_bind_of_ok hl (lasts_bind (fun _ => .pure _) _)
  | updateOperand =>
      refine lasts_bind (fun _ => (Lasting.lookUp _ _).bind fun _ => (Lasting.read _).bind fun _ => ?_) m
      exact (Lasting.orFail _ _).bind fun _ => (Lasting.assign _ _ _).bind fun _ => .pure _
  | updateOld hl =>
      refine lasts_bind_of_ok hl (lasts_bind (fun _ => (Lasting.read _).bind fun _ => ?_) _)
      exact (Lasting.orFail _ _).bind fun _ => (Lasting.assign _ _ _).bind fun _ => .pure _
  | @updateNew _ _ _ m₂ id name op _ a old new hl hold hnew =>
      have hvalue : Exec.orFail op.line (applyBinary m₂.heap (updateKind op.kind) op.lexeme old a) m₂ = .ok new m₂ := by
        rw [hnew]
        rfl
      refine lasts_bind_of_ok hl (lasts_bind_of_ok hold (lasts_bind_of_ok rfl ?_))
      exact lasts_bind_of_ok hvalue (lasts_bind (fun _ => .pure _) _)
  | array => exact lasts_bind (fun _ => .newArray _) m
  | indexPosition =>
      refine lasts_bind (fun _ => ?_) m
      exact (evaluate_lasting _ _).bind fun _ => (Lasting.read _).bind fun _ => .orFail _ _
  | indexTarget hl => exact lasts_bind_of_ok hl (lasts_bind (fun _ => (Lasting.read _).bind fun _ => .orFail _ _) _)
  | callee => exact lasts_bind (fun _ => (evaluateAll_lasting _ _).bind fun _ => call_lasting _ _ _ _) m
  | arguments hf => exact lasts_bind_of_ok hf (lasts_bind (fun _ => call_lasting _ _ _ _) _)
  | call hf hargs => exact lasts_bind_of_ok hf (lasts_bind_of_ok hargs (.refl _))
  | get => exact lasts_bind (fun _ => .property _ _) m
  | setObject =>
      refine lasts_bind (fun a => ?_) m
      cases a with
      | object id => exact (evaluate_lasting _ _).bind fun _ => (Lasting.setField _ _ _).bind fun _ => .pure _
      | null | bool | number | string | array | function | native | classRef => exact .fail _ _
  | setValue hl => exact lasts_bind_of_ok hl (lasts_bind (fun _ => (Lasting.setField _ _ _).bind fun _ => .pure _) _)

theorem evaluateAll_lasts_rest {es : List Expr} (h : Calls ⟨steps + 1, .evalAll es, m⟩ R) :
    R.leaves.heap.Lasts ((evaluateAll (steps + 1) es).leaves m).heap := by
  cases h with
  | firstValue => exact lasts_bind (fun _ => (evaluateAll_lasting _ _).bind fun _ => .pure _) m
  | otherValues hl => exact lasts_bind_of_ok hl (lasts_bind (fun _ => .pure _) _)

theorem call_lasts_rest {callee : Value} {args : List Value} {line : Nat}
    (h : Calls ⟨steps + 1, .call callee args line, m⟩ R) :
    R.leaves.heap.Lasts ((call (steps + 1) callee args line).leaves m).heap := by
  cases h with
  | callWith harity =>
      refine lasts_bind_of_ok (a := some args.length) (congrArg (EStateM.Result.ok · m) harity) ?_
      simp only [ne_eq, not_true_eq_false, if_false]
      exact .refl _

theorem callWith_lasts_rest {callee : Value} {args : List Value} {line : Nat}
    (h : Calls ⟨steps + 1, .callWith callee args line, m⟩ R) :
    R.leaves.heap.Lasts ((callWith (steps + 1) callee args line).leaves m).heap := by
  cases h with
  | invoke => exact .refl _
  | @construct _ _ m₁ _ id _ _ _ method _ hobject hmethod hbound =>
      have hread : Exec.read (fun h => (h.cls id).method? constructorName) m₁ = .ok (some method) m₁ :=
        congrArg (EStateM.Result.ok · m₁) hmethod
      refine lasts_bind_of_ok hobject (lasts_bind_of_ok hread ?_)
      exact lasts_bind_of_ok hbound (lasts_bind (fun _ => .pure _) _)

theorem invoke_lasts_rest {f : Function} {args : List Value} (h : Calls ⟨steps + 1, .invoke f args, m⟩ R) :
    R.leaves.heap.Lasts ((invoke (steps + 1) f args).leaves m).heap := by
  unfold invoke
  cases h with
  | @body _ _ m₁ _ _ scope hscope =>
      refine lasts_bind_of_ok hscope ?_
      have hheap := congrArg Machine.heap (Exec.leaves_inScope scope (executeAll steps f.decl.body) m₁)
      refine hheap ▸ lasts_bind (fun flow => ?_) m₁
      split
      · exact .readAt _ _ _
      · cases flow <;> exact .pure _
  | readThis hscope hbody hinit =>
      refine lasts_bind_of_ok hscope (lasts_bind_of_ok hbody ?_)
      rw [if_pos hinit]
      exact .refl _

theorem execute_lasts_rest {s : Stmt} (h : Calls ⟨steps + 1, .exec s, m⟩ R) :
    R.leaves.heap.Lasts ((execute (steps + 1) s).leaves m).heap := by
  unfold execute
  cases h with
  | expr | ret => exact lasts_bind (fun _ => .pure _) m
  | print => exact lasts_bind (fun _ => (Lasting.read _).bind fun _ => (Lasting.write _).bind fun _ => .pure _) m
  | init => exact lasts_bind (fun _ => (Lasting.define _ _).bind fun _ => .pure _) m
  | @block _ _ m₁ body scope hscope =>
      refine lasts_bind_of_ok rfl (lasts_bind_of_ok hscope ?_)
      have hheap := congrArg Machine.heap (Exec.leaves_inScope scope (executeAll steps body) m₁)
      exact hheap ▸ .refl _
  | ifTest =>
      refine lasts_bind (fun a => ?_) m
      split
      · exact execute_lasting _ _
      · split
        · exact execute_lasting _ _
        · exact .pure _
  | ifTrue hl htrue =>
      refine lasts_bind_of_ok hl ?_
      rw [if_pos htrue]
      exact .refl _
  | ifFalse hl hfalse =>
      refine lasts_bind_of_ok hl ?_
      rw [if_neg (Bool.eq_false_iff.mp hfalse)]
      exact .refl _
  | whileLoop => exact .refl _

theorem executeAll_lasts_rest {ss : List Stmt} (h : Calls ⟨steps + 1, .execAll ss, m⟩ R) :
    R.leaves.heap.Lasts ((executeAll (steps + 1) ss).leaves m).heap := by
  cases h with
  | firstStmt =>
      refine lasts_bind (fun flow => ?_) m
      cases flow with
      | normal => exact executeAll_lasting _ _
      | returned value => exact .pure _
  | otherStmts hs => exact lasts_bind_of_ok hs (.refl _)

theorem loop_lasts_rest {test : Expr} {body : Stmt} (h : Calls ⟨steps + 1, .loop test body, m⟩ R) :
    R.leaves.heap.Lasts ((loop (steps + 1) test body).leaves m).heap := by
  unfold loop
  cases h with
  | loopTest =>
      refine lasts_bind (fun a => ?_) m
      split
      · refine (execute_lasting _ _).bind fun flow => ?_
        cases flow with
        | normal => exact loop_lasting _ _ _
        | returned value => exact .pure _
      · exact .pure _
  | loopBody hl htrue =>
      refine lasts_bind_of_ok hl ?_
      rw [if_pos htrue]
      refine lasts_bind (fun flow => ?_) _
      cases flow with
      | normal => exact loop_lasting _ _ _
      | returned value => exact .pure _
  | loopAgain hl htrue hbody =>
      refine lasts_bind_of_ok hl ?_
      rw [if_pos htrue]
      exact lasts_bind_of_ok hbody (.refl _)

theorem executeTop_lasts_rest {p : Program} (h : Calls ⟨steps + 1, .top p, m⟩ R) :
    R.leaves.heap.Lasts ((executeTop (steps + 1) p).leaves m).heap := by
  cases h with
  | topFirst => exact lasts_bind (fun _ => executeTop_lasting _ _) m
  | topOthers hs => exact lasts_bind_of_ok hs (.refl _)

/-- **Everything lasts from the end of each part of a task to the end of the task.** -/
theorem Point.Calls.lasts_rest {P : Point} (h : P.Calls R) : R.leaves.heap.Lasts P.leaves.heap := by
  obtain ⟨steps, task, m⟩ := P
  cases steps with
  | zero => cases h
  | succ steps =>
      cases task with
      | eval e => exact evaluate_lasts_rest h
      | evalAll es => exact evaluateAll_lasts_rest h
      | call callee args line => exact call_lasts_rest h
      | callWith callee args line => exact callWith_lasts_rest h
      | invoke f args => exact invoke_lasts_rest h
      | exec s => exact execute_lasts_rest h
      | execAll ss => exact executeAll_lasts_rest h
      | loop test body => exact loop_lasts_rest h
      | top p => exact executeTop_lasts_rest h
      | lookUp | assign | readThis => cases h

end Rest

/-! ## Sound machines -/

/-- The heap evolved from one with a root scope and the clock. -/
def Machine.Sound (m : Machine) : Prop := (Heap.empty.addNative .clock).Evolves m.heap

theorem Machine.Sound.ordered {m : Machine} (hm : m.Sound) : m.heap.Ordered :=
  Heap.Evolves.ordered hm (Heap.ordered_empty .clock)

theorem Machine.Sound.natives {m : Machine} (hm : m.Sound) : m.heap.natives = #[.clock] := Heap.Evolves.natives hm

/-- All arrays were added when their elements were there. -/
theorem Machine.Sound.added {m : Machine} (hm : m.Sound) (i : ArrayId) (hi : m.heap.Has (.array i)) :
    (Heap.empty.addNative .clock).Added m.heap i :=
  Heap.Evolves.added hm (Nat.not_lt_zero i) hi

/-- The regime of sound machines: only values and scopes of the heap are used, and the heap evolves out of them. -/
def Regime.sound : Regime where
  inv := Machine.Sound
  value := fun m v => m.heap.Holds v
  scope := fun m i => m.heap.Has (.scope i)
  step := fun m m' => m.heap.Evolves m'.heap

theorem Value.IsPlain.holds {v : Value} (hv : v.IsPlain) (h : Heap) : h.Holds v := by
  intro c hc
  rw [hv.cell?] at hc
  cases hc

theorem Machine.Sound.alters {m : Machine} {h : Heap} (hm : m.Sound) (e : m.heap.Evolves h) :
    Regime.sound.Alters m { m with heap := h } :=
  ⟨hm.trans e, e⟩

/-- **Evaluation keeps machines sound.** -/
theorem Regime.sound_lawful : Regime.sound.Lawful where
  refl := fun m => .refl m.heap
  trans := .trans
  value_step := fun hstep hv => hv.lasts hstep.lasts
  scope_step := fun hstep hi => hstep.lasts.has (.scope _) hi
  plain := fun hv => hv.holds _
  global := fun hm => hm.ordered.global
  enclosing := fun hm hi he => hm.ordered.closed (.scope _) _ hi (.enclosing he)
  bound := fun hm hi hget c hc => hm.ordered.closed (.scope _) c hi (.bound (mem_of_lookup hget) hc)
  closure := fun hm hf => hm.ordered.closed _ _ (hf _ rfl) .closure
  method := fun hm hclass hmethod => hm.ordered.closed _ _ (hclass _ rfl) (.method (mem_of_lookup hmethod))
  element := fun hm harray hmem => hm.ordered.element harray hmem
  cls := fun hm hobject => hm.ordered.cls hobject
  field := fun hm hobject hget c hc => hm.ordered.closed _ c (hobject _ rfl) (.field (mem_of_lookup hget) hc)
  native := fun hm hrun => ((Machine.confined_start hm.natives []).native hrun).holds _
  switch := fun _ hm => ⟨hm, .refl _⟩
  take := fun _ hm => ⟨hm, .refl _⟩
  tick := fun hm => ⟨hm, .refl _⟩
  define := fun name hm _ hv => hm.alters (.define _ name hv)
  setField := fun name hm _ hv => hm.alters (.setField _ name hv)
  addScope := fun hm hi hnames => ⟨hm.alters (.addScope hi hnames), (Heap.has_addScope _ _ _).mpr (.inr rfl)⟩
  addArray := by
    intro m items hm hitems
    refine ⟨hm.alters (.addArray hitems), fun c hc => ?_⟩
    cases hc
    exact (Heap.has_addArray _ _ _).mpr (.inr rfl)
  addFunction := by
    intro m f hm hf
    refine ⟨hm.alters (.addFunction hf), fun c hc => ?_⟩
    cases hc
    exact (Heap.has_addFunction _ _ _).mpr (.inr rfl)
  addClass := by
    intro m k hm hk
    refine ⟨hm.alters (.addClass hk), fun c hc => ?_⟩
    cases hc
    exact (Heap.has_addClass _ _ _).mpr (.inr rfl)
  addObject := by
    intro m k hm hk
    refine ⟨hm.alters (.addObject (hk _ rfl)), fun c hc => ?_⟩
    cases hc
    exact (Heap.has_addObject _ _ _).mpr (.inr rfl)

/-- The values and the scope that a task is given are in the heap. -/
def Task.HeldBy (h : Heap) : Task → Prop
  | .assign _ _ value => h.Holds value
  | .call callee args _ => h.Holds callee ∧ ∀ v ∈ args, h.Holds v
  | .callWith callee args _ => h.Holds callee ∧ ∀ v ∈ args, h.Holds v
  | .invoke f args => h.Has (.scope f.closure) ∧ ∀ v ∈ args, h.Holds v
  | .readThis closure => h.Has (.scope closure)
  | .eval _ | .evalAll _ | .lookUp _ _ | .exec _ | .execAll _ | .loop _ _ | .top _ => True

namespace Point

/-- A sound machine, and a task that only has hold of what is in its heap. -/
structure Sound (P : Point) : Prop where
  machine : P.machine.Sound
  current : P.machine.heap.Has (.scope P.machine.current)
  task : P.task.HeldBy P.machine.heap

section Sound

variable {P Q : Point} {steps : Nat} {m m₁ : Machine}

/-- **A sound task leaves a sound machine.** -/
theorem Sound.moves (h : P.Sound) : Regime.sound.Moves P.machine P.leaves := by
  obtain ⟨steps, task, m⟩ := P
  have hm : Regime.sound.inv m := h.machine
  have hs : Regime.sound.scope m m.current := h.current
  have ht := h.task
  have governs := Regime.sound_lawful.governs steps
  cases task with
  | eval e => exact (governs.eval hm hs).moves
  | evalAll es => exact (governs.evalAll hm hs).moves
  | lookUp id name => exact (Regime.keeps_lookUp Regime.sound_lawful hm hs id name).moves
  | assign id name value => exact (Regime.keeps_assign Regime.sound_lawful hm hs id name ht).moves
  | call callee args line => exact (governs.call hm ht.1 ht.2).moves
  | callWith callee args line => exact (governs.callWith hm ht.1 ht.2).moves
  | invoke f args => exact (governs.invoke hm ht.1 ht.2).moves
  | readThis closure => exact (Regime.keeps_readAt Regime.sound_lawful hm ht 0 thisName).moves
  | exec s => exact (governs.exec hm hs).moves
  | execAll ss => exact (governs.execAll hm hs).moves
  | loop test body => exact (governs.loop hm hs).moves
  | top p => exact (Regime.sound_lawful.top steps p hm hs).moves

/-- Another task in the same scope, on a machine to which this one moves. -/
theorem Sound.at {task : Task} (h : P.Sound) (hk : Regime.sound.Moves P.machine m) (ht : task.HeldBy m.heap) :
    Sound ⟨steps, task, m⟩ :=
  ⟨hk.inv, hk.scope Regime.sound_lawful h.current, ht⟩

/-- Another task in a new scope. -/
theorem Sound.inScope {task : Task} {i scope : ScopeId} {names : Bindings} (h : P.Sound)
    (hi : P.machine.heap.Has (.scope i)) (hnames : ∀ entry ∈ names, P.machine.heap.Holds entry.2)
    (hscope : Exec.newScope i names P.machine = .ok scope m₁) (ht : ∀ h : Heap, task.HeldBy h) :
    Sound ⟨steps, task, { m₁ with current := scope }⟩ := by
  cases hscope
  obtain ⟨hk, hnew⟩ := Regime.sound_lawful.addScope h.machine hi hnames
  exact ⟨hk.inv, hnew, ht _⟩

end Sound

end Point

/-- What an action that ends well comes to under a regime. -/
theorem Regime.Keeps.of_ok {α : Type} {R : Regime} {Q : α → Machine → Prop} {x : Exec α} {m m' : Machine} {a : α}
    (h : R.Keeps Q x m) (hx : x m = .ok a m') : R.Moves m m' ∧ Q a m' := by
  unfold Regime.Keeps at h
  rwa [hx] at h

section Parts

variable {P Q : Point} {steps : Nat} {m m₁ : Machine}

theorem Point.Sound.evaluate {e : Expr} {v : Value} {task : Task} (h : Sound ⟨steps + 1, task, m⟩)
    (hrun : evaluate steps e m = .ok v m₁) : Regime.sound.Moves m m₁ ∧ m₁.heap.Holds v :=
  ((Regime.sound_lawful.governs steps).eval h.machine h.current).of_ok hrun

/-- **A sound task is made of sound tasks.** -/
theorem Point.Calls.sound (hcall : P.Calls Q) (h : P.Sound) : Q.Sound := by
  have hR := Regime.sound_lawful
  cases hcall with
  | group | unary | binaryLeft | logicalLeft | ternaryTest | var | this | assignValue | updateOperand | array
    | indexPosition | callee | get | setObject | firstValue | expr | print | init | ifTest | whileLoop | ret
    | firstStmt | loopTest | topFirst => exact h.at (.refl hR h.machine) trivial
  | binaryRight hl | logicalRight hl | ternaryTrue hl _ | ternaryFalse hl _ | updateOld hl | indexTarget hl
    | arguments hl | setValue hl | otherValues hl | ifTrue hl _ | ifFalse hl _ | loopBody hl _ =>
      exact h.at (h.evaluate hl).1 trivial
  | assign hl =>
      obtain ⟨hk, hv⟩ := h.evaluate hl
      exact h.at hk hv
  | updateNew hl hold hnew =>
      obtain ⟨hk, -⟩ := h.evaluate hl
      obtain ⟨hk', -⟩ := (Regime.keeps_lookUp hR hk.inv (hk.scope hR h.current) _ _).of_ok hold
      exact h.at (hk.trans hR hk') ((isPlain_applyBinary hnew).holds _)
  | @call steps _ _ _ _ _ _ _ _ hf hargs =>
      obtain ⟨hk, hv⟩ := h.evaluate hf
      obtain ⟨hk', hvs⟩ := ((hR.governs steps).evalAll hk.inv (hk.scope hR h.current)).of_ok hargs
      exact h.at (hk.trans hR hk') ⟨hv.lasts hk'.step.lasts, hvs⟩
  | callWith _ => exact h.at (.refl hR h.machine) h.task
  | invoke =>
      obtain ⟨hf, hargs⟩ := h.task
      exact h.at (.refl hR h.machine) ⟨hR.closure h.machine hf, hargs⟩
  | construct hobject hmethod hbound =>
      obtain ⟨hclass, hargs⟩ := h.task
      obtain ⟨hk, ho⟩ := (Regime.keeps_newObject hR h.machine hclass).of_ok hobject
      have hclosure := hR.method hk.inv (hR.value_step hk.step hclass) hmethod
      obtain ⟨hk', hf⟩ := (Regime.keeps_bindMethod hR hk.inv hclosure ho).of_ok hbound
      exact h.at (hk.trans hR hk') ⟨hf, fun v hv => (hargs v hv).lasts (hk.trans hR hk').step.lasts⟩
  | body hscope =>
      obtain ⟨hf, hargs⟩ := h.task
      exact h.inScope hf (fun entry hentry => hargs _ (Bindings.mem_ofParameters hentry)) hscope fun _ => trivial
  | block hscope => exact h.inScope h.current (fun _ hentry => absurd hentry List.not_mem_nil) hscope fun _ => trivial
  | @readThis steps _ m₁ _ f _ scope _ hscope hbody _ =>
      obtain ⟨hf, hargs⟩ := h.task
      have hnames : ∀ entry ∈ Bindings.ofParameters f.decl.params _, _ := fun entry hentry =>
        hargs _ (Bindings.mem_ofParameters hentry)
      obtain ⟨hk, -⟩ := (Regime.keeps_newScope hR h.machine hf hnames).of_ok hscope
      have hP : Sound ⟨steps, .execAll f.decl.body, { m₁ with current := scope }⟩ :=
        h.inScope hf hnames hscope fun _ => trivial
      have hinside : Regime.sound.Keeps _ (executeAll steps f.decl.body) _ :=
        (hR.governs steps).execAll hP.machine hP.current
      obtain ⟨hk', -⟩ := (Regime.keeps_inScope hR hk.inv hR.flow_switch hinside).of_ok hbody
      exact h.at (hk.trans hR hk') ((hk.trans hR hk').step.lasts.has _ hf)
  | @loopAgain steps _ _ _ _ _ _ hl _ hbody =>
      obtain ⟨hk, -⟩ := h.evaluate hl
      obtain ⟨hk', -⟩ := ((hR.governs steps).exec hk.inv (hk.scope hR h.current)).of_ok hbody
      exact h.at (hk.trans hR hk') trivial
  | @otherStmts steps _ _ _ _ hs =>
      exact h.at (((hR.governs steps).exec h.machine h.current).of_ok hs).1 trivial
  | @topOthers steps _ _ _ _ _ hs =>
      exact h.at (((hR.governs steps).exec h.machine h.current).of_ok hs).1 trivial

/-- **Every point of a run that starts at a sound one is sound.** -/
theorem Point.Sound.visits (h : P.Sound) (hvisit : P.Visits Q) : Q.Sound := by
  induction hvisit with
  | refl => exact h
  | step hcall _ ih => exact ih (hcall.sound h)

end Parts

end Scriptlet
