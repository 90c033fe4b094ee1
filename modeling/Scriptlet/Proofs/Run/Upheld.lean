import Scriptlet.Proofs.Heap.Receivers
import Scriptlet.Proofs.Run.Points

/-!
# Actions that keep the scopes of `this`

* `Steady L m` — the heap of the machine is framed and the current scope is plain.
* `Upheld L m m'` — the machine came from `m` to `m'` and is still steady, and no scope of `this` has changed.
* `Point.Framed L P` — at the point `P` the machine is steady, and the task is framed by the scopes around it.
* `Traced L V x m` — the action `x` upholds the machine `m`, each point of `V` is framed, and what holds after its task
  is held to the end of the action.

Principal results: `Traced.bind` — actions compose; `upheld_assign` — an assignment leaves the scopes of `this` alone;
`upheld_bindMethod` — binding a method makes one such scope.
-/

set_option autoImplicit false

namespace Scriptlet

/-- The machine that the task of a point leaves, whether or not it ends well. -/
def Point.leaves : Point → Machine
  | ⟨steps, .eval e, m⟩ => (evaluate steps e).leaves m
  | ⟨steps, .evalAll es, m⟩ => (evaluateAll steps es).leaves m
  | ⟨_, .lookUp id name, m⟩ => (Exec.lookUp id name).leaves m
  | ⟨_, .assign id name value, m⟩ => (Exec.assign id name value).leaves m
  | ⟨steps, .call callee args line, m⟩ => (call steps callee args line).leaves m
  | ⟨steps, .callWith callee args line, m⟩ => (callWith steps callee args line).leaves m
  | ⟨steps, .invoke f args, m⟩ => (invoke steps f args).leaves m
  | ⟨_, .readThis closure, m⟩ => (Exec.readAt closure 0 thisName).leaves m
  | ⟨steps, .exec s, m⟩ => (execute steps s).leaves m
  | ⟨steps, .execAll ss, m⟩ => (executeAll steps ss).leaves m
  | ⟨steps, .loop test body, m⟩ => (loop steps test body).leaves m
  | ⟨steps, .top p, m⟩ => (executeTop steps p).leaves m

namespace Exec

variable {α β : Type} {x : Exec α} {f : α → Exec β} {m m₁ : Machine}

theorem leaves_of_ok {a : α} (h : x m = .ok a m₁) : x.leaves m = m₁ := by
  rw [leaves, h]

theorem leaves_bind_of_ok {a : α} (h : x m = .ok a m₁) : (x >>= f).leaves m = (f a).leaves m₁ := by
  simp only [leaves, Bind.bind, EStateM.bind, h]

theorem leaves_bind_of_error {halt : Halt} (h : x m = .error halt m₁) : (x >>= f).leaves m = x.leaves m := by
  simp only [leaves, Bind.bind, EStateM.bind, h]

theorem bind_of_ok {a : α} (h : x m = .ok a m₁) : (x >>= f) m = f a m₁ := by
  simp only [Bind.bind, EStateM.bind, h]

theorem bind_of_error {halt : Halt} (h : x m = .error halt m₁) : (x >>= f) m = .error halt m₁ := by
  simp only [Bind.bind, EStateM.bind, h]

/-- A composed action that ends well consists of two actions that do. -/
theorem bind_ok {b : β} (h : (x >>= f) m = .ok b m₁) : ∃ a m', x m = .ok a m' ∧ f a m' = .ok b m₁ := by
  simp only [Bind.bind, EStateM.bind] at h
  cases hx : x m with
  | ok a m' =>
      rw [hx] at h
      exact ⟨a, m', rfl, h⟩
  | error halt m' =>
      rw [hx] at h
      cases h

theorem leaves_inScope (scope : ScopeId) (x : Exec α) (m : Machine) :
    (inScope scope x).leaves m = { x.leaves { m with current := scope } with current := m.current } := by
  unfold leaves inScope
  simp only
  cases x { m with current := scope } <;> rfl

end Exec

/-! ## Machines -/

/-- The heap of the machine is framed, and the current scope does not bind `this`. -/
structure Steady (L : Layout) (m : Machine) : Prop where
  heap : HeapFramed L m.heap
  table : m.table = L.table
  current : m.heap.Plain m.current

/-- What a task does to the machine. -/
structure Upheld (L : Layout) (m m' : Machine) : Prop where
  steady : Steady L m'
  current : m'.current = m.current
  held : m.heap.Held m'.heap

section Upheld

variable {L : Layout} {m m₁ m₂ : Machine}

theorem Upheld.refl (hm : Steady L m) : Upheld L m m := ⟨hm, rfl, .refl _⟩

theorem Upheld.trans (h : Upheld L m m₁) (h' : Upheld L m₁ m₂) : Upheld L m m₂ :=
  ⟨h'.steady, h'.current.trans h.current, h.held.trans h'.held⟩

/-- A change of the heap that leaves it framed. -/
theorem Upheld.heap (hm : Steady L m) {h : Heap} (hh : HeapFramed L h) (g : m.heap.Held h) :
    Upheld L m { m with heap := h } :=
  ⟨⟨hh, hm.table, g.plain _ hm.current⟩, rfl, g⟩

/-- A change of neither heap nor current scope. -/
theorem Upheld.of_eq (hm : Steady L m) (hheap : m₁.heap = m.heap) (hcurrent : m₁.current = m.current)
    (htable : m₁.table = m.table) : Upheld L m m₁ := by
  refine ⟨⟨hheap ▸ hm.heap, htable.trans hm.table, ?_⟩, hcurrent, hheap ▸ .refl _⟩
  rw [hheap, hcurrent]
  exact hm.current

theorem Upheld.newScope (hm : Steady L m) {i : ScopeId} (hi : i < m.heap.scopes.size) {names : Bindings}
    (hnames : names.binds thisName = true → ∃ o, names = [(thisName, .object o)]) :
    Upheld L m { m with heap := m.heap.addScope ⟨some i, names⟩ } :=
  .heap hm (hm.heap.addScope hi hnames) (.addScope _ _)

theorem Upheld.define (hm : Steady L m) {i : ScopeId} (hi : m.heap.Plain i) {name : String} (hname : name ≠ thisName)
    (value : Value) : Upheld L m { m with heap := m.heap.define i name value } :=
  .heap hm (hm.heap.define hi hname value) (.define hi hname value)

theorem Upheld.newObject (hm : Steady L m) (o : Object) : Upheld L m { m with heap := m.heap.addObject o } :=
  .heap hm (hm.heap.of_eq (.addObject _ o) rfl rfl rfl) (.addObject _ o)

theorem Upheld.setField (hm : Steady L m) (o : ObjectId) (name : String) (value : Value) :
    Upheld L m { m with heap := m.heap.setField o name value } :=
  .heap hm (hm.heap.of_eq (.setField _ o name value) rfl rfl rfl) (.setField _ o name value)

theorem Upheld.newArray (hm : Steady L m) (items : List Value) :
    Upheld L m { m with heap := m.heap.addArray items } :=
  .heap hm (hm.heap.of_eq (.of_eq rfl rfl) rfl rfl rfl) (.of_eq rfl rfl)

theorem Upheld.newFunction (hm : Steady L m) {f : Function} (hf : FunctionFramed L m.heap f) :
    Upheld L m { m with heap := m.heap.addFunction f } :=
  .heap hm (hm.heap.addFunction hf) (.addFunction _ f)

/-- Actions one after another. -/
theorem Upheld.bind {α β : Type} {x : Exec α} {f : α → Exec β} (hx : Upheld L m (x.leaves m))
    (hf : ∀ a m₁, x m = .ok a m₁ → Upheld L m m₁ → Upheld L m₁ ((f a).leaves m₁)) :
    Upheld L m ((x >>= f).leaves m) := by
  cases hrun : x m with
  | ok a m₁ =>
      rw [Exec.leaves_of_ok hrun] at hx
      rw [Exec.leaves_bind_of_ok hrun]
      exact hx.trans (hf a m₁ hrun hx)
  | error halt m₁ =>
      rw [Exec.leaves_bind_of_error hrun]
      exact hx

end Upheld

/-! ## Points -/

/-- A task is framed by the scopes around it. -/
def Task.Framed (L : Layout) (F : Frame) (h : Heap) : Task → Prop
  | .eval e => F.AdmitsAll L e.references
  | .evalAll es => F.AdmitsAll L (Expr.referencesAll es)
  | .lookUp _ _ => True
  | .assign id name _ => name.name ≠ thisName ∧ ∀ d, L.table.distance? id = some d → F[d]? = some false
  | .call _ _ _ => True
  | .callWith _ _ _ => True
  | .invoke f _ => FunctionFramed L h f
  | .readThis closure => h.bindsThis closure = true
  | .exec s => s.Framed L F
  | .execAll ss => Stmt.FramedAll L F ss
  | .loop test body => (Stmt.whileLoop test body).Framed L F
  | .top p => Stmt.FramedAll L F p

/-- An admitted reference that is more than a reading is assigned outside the scopes of `this`. -/
theorem Frame.AdmitsAll.assigns {L : Layout} {F : Frame} {refs : List Reference} {h : Heap} {id : NodeId} {name : Ident}
    {value : Value} (hrefs : F.AdmitsAll L refs) (access : Access) (hmem : ⟨id, name.name, access⟩ ∈ refs)
    (haccess : access ≠ .read) : (Task.assign id name value).Framed L F h := by
  have hr := hrefs _ hmem
  have hname : name.name ≠ thisName := fun hthis => haccess (hr.this hthis).1
  exact ⟨hname, hr.other hname⟩

namespace Point

/-- The machine is steady, its scopes are those of the frame, and so are those of the task. -/
structure FramedIn (L : Layout) (F : Frame) (P : Point) : Prop where
  steady : Steady L P.machine
  chained : Chained P.machine.heap P.machine.current F
  task : P.task.Framed L F P.machine.heap

/-- A point that is framed by the scopes around it. -/
def Framed (L : Layout) (P : Point) : Prop := ∃ F, P.FramedIn L F

/-- Another task in the same scopes. -/
theorem FramedIn.at {L : Layout} {F : Frame} {steps steps' : Nat} {task task' : Task} {m m' : Machine}
    (h : FramedIn L F ⟨steps, task, m⟩) (hk : Upheld L m m') (htask : task'.Framed L F m'.heap) :
    Framed L ⟨steps', task', m'⟩ :=
  ⟨F, hk.steady, hk.current ▸ h.chained.held hk.held, htask⟩

/-- Every framed task upholds the machine. -/
def StepsUphold (L : Layout) (steps : Nat) : Prop :=
  ∀ {task : Task} {m : Machine}, Framed L ⟨steps, task, m⟩ → Upheld L m (leaves ⟨steps, task, m⟩)

end Point

open Point

/-! ## Actions -/

/-- The action upholds the machine; the points are framed, and what holds after their tasks is held to its end. -/
structure Traced {α : Type} (L : Layout) (V : Point → Prop) (x : Exec α) (m : Machine) : Prop where
  upheld : Upheld L m (x.leaves m)
  parts : ∀ R, V R → R.Framed L ∧ R.leaves.heap.Held (x.leaves m).heap

/-- The points of an action that starts with the task of a point. -/
def Before {α : Type} (P : Point) (x : Exec α) (m : Machine) (V : α → Machine → Point → Prop) (R : Point) : Prop :=
  R = P ∨ ∃ a m₁, x m = .ok a m₁ ∧ V a m₁ R

section Traced

variable {α β : Type} {L : Layout} {V : Point → Prop} {x : Exec α} {f : α → Exec β} {m m₁ : Machine}

theorem Traced.mono {V' : Point → Prop} (h : Traced L V x m) (hV : ∀ R, V' R → V R) : Traced L V' x m :=
  ⟨h.upheld, fun R hR => h.parts R (hV R hR)⟩

/-- An action without tasks. -/
theorem Traced.nothing (h : Upheld L m (x.leaves m)) : Traced L (fun _ => False) x m := ⟨h, nofun⟩

/-- An action that is the task of a point. -/
theorem Traced.task {P : Point} (hP : P.Framed L) (hx : Upheld L m (x.leaves m))
    (hheap : P.leaves.heap = (x.leaves m).heap) : Traced L (· = P) x m := by
  refine ⟨hx, ?_⟩
  rintro R rfl
  exact ⟨hP, hheap ▸ .refl _⟩

/-- **An action that starts with the task of a point.** -/
theorem Traced.bind {P : Point} {V : α → Machine → Point → Prop} (hP : P.Framed L) (hx : Upheld L m (x.leaves m))
    (hheap : P.leaves.heap = (x.leaves m).heap)
    (hf : ∀ a m₁, x m = .ok a m₁ → Upheld L m m₁ → Traced L (V a m₁) (f a) m₁) :
    Traced L (Before P x m V) (x >>= f) m := by
  refine ⟨hx.bind fun a m₁ hrun hk => (hf a m₁ hrun hk).upheld, ?_⟩
  cases hrun : x m with
  | ok a m₁ =>
      rw [Exec.leaves_of_ok hrun] at hx hheap
      have hrest := hf a m₁ hrun hx
      rw [Exec.leaves_bind_of_ok hrun]
      rintro R (rfl | ⟨a', m', hrun', hR⟩)
      · exact ⟨hP, hheap ▸ hrest.upheld.held⟩
      · rw [hrun] at hrun'
        cases hrun'
        exact hrest.parts R hR
  | error halt m₁ =>
      rw [Exec.leaves_bind_of_error hrun]
      rintro R (rfl | ⟨a', m', hrun', hR⟩)
      · exact ⟨hP, hheap ▸ .refl _⟩
      · rw [hrun] at hrun'
        cases hrun'

/-- An action that starts with something other than a task and ends well. -/
theorem Traced.step {a : α} (hx : x m = .ok a m₁) (hk : Upheld L m m₁) (h : Traced L V (f a) m₁) :
    Traced L V (x >>= f) m := by
  refine ⟨?_, ?_⟩
  · rw [Exec.leaves_bind_of_ok hx]
    exact hk.trans h.upheld
  · rw [Exec.leaves_bind_of_ok hx]
    exact h.parts

theorem Traced.read {g : Heap → α} (h : Traced L V (f (g m.heap)) m) : Traced L V (Exec.read g >>= f) m := ⟨h.1, h.2⟩

end Traced

section Actions

variable {α : Type} {L : Layout} {F : Frame} {m : Machine}

theorem upheld_orFail (hm : Steady L m) (line : Nat) (result : Except ScriptFault α) :
    Upheld L m ((Exec.orFail line result).leaves m) := by
  cases result <;> exact .refl hm

theorem upheld_readAt (hm : Steady L m) (scope : ScopeId) (d : Nat) (name : String) :
    Upheld L m ((Exec.readAt scope d name).leaves m) := by
  have hleaves : (Exec.readAt scope d name).leaves m = m := by
    unfold Exec.leaves Exec.readAt
    cases m.heap.readAt scope d name <;> rfl
  exact hleaves.symm ▸ .refl hm

theorem upheld_lookUp (hm : Steady L m) (id : NodeId) (name : Ident) :
    Upheld L m ((Exec.lookUp id name).leaves m) := by
  unfold Exec.lookUp
  cases hd : m.table.distance? id with
  | some d =>
      have hread := upheld_readAt hm m.current d name.name
      simp only [Exec.leaves, hd] at hread ⊢
      exact hread
  | none =>
      simp only [Exec.leaves, hd]
      cases m.heap.search? globalScope name.name <;> exact .refl hm

theorem upheld_write (hm : Steady L m) (text : String) : Upheld L m ((Exec.write text).leaves m) := by
  unfold Exec.leaves Exec.write
  simp only
  split <;> rename_i hr <;> split at hr <;> cases hr <;> exact .of_eq hm rfl rfl rfl

theorem upheld_callNative (hm : Steady L m) (id : NativeId) (args : List Value) (line : Nat) :
    Upheld L m ((Exec.callNative id args line).leaves m) := by
  unfold Exec.leaves Exec.callNative
  simp only
  split <;> rename_i hr <;> split at hr <;> cases hr <;> exact .of_eq hm rfl rfl rfl

/-- Assigning to a global name, which is not `this`. -/
theorem upheld_assignGlobal (hm : Steady L m) (name : Ident) (value : Value) :
    Upheld L m ((Exec.assignFrom globalScope name value).leaves m) := by
  unfold Exec.leaves Exec.assignFrom
  cases ho : m.heap.owner? globalScope name.name with
  | none => exact .refl hm
  | some owner =>
      obtain ⟨rfl, hb⟩ := Heap.owner?_of_root hm.heap.root ho
      refine .define hm hm.heap.global (fun hthis => ?_) value
      rw [hthis, ← Heap.bindsThis, hm.heap.global.free] at hb
      cases hb

theorem upheld_assign {steps : Nat} {id : NodeId} {name : Ident} {value : Value}
    (h : FramedIn L F ⟨steps, .assign id name value, m⟩) : Upheld L m ((Exec.assign id name value).leaves m) := by
  obtain ⟨hm, hc, hname, hplain⟩ := h
  unfold Exec.assign
  cases hd : m.table.distance? id with
  | none =>
      have hglobal := upheld_assignGlobal hm name value
      simp only [Exec.leaves, hd] at hglobal ⊢
      exact hglobal
  | some d =>
      obtain ⟨owner, howner, hlt, hfree⟩ := hc.ancestor (hplain d (hm.table ▸ hd))
      simp only [Exec.leaves, hd, howner]
      exact .define hm ⟨hlt, hfree⟩ hname value

/-- A method bound to an object is framed: its closure is a scope that binds `this` to the object and nothing else. -/
theorem upheld_bindMethod {method bound : Function} {o : ObjectId} {m' : Machine} (hm : Steady L m)
    (hmethod : MethodFramed L m.heap method) (hrun : Exec.bindMethod method o m = .ok bound m') :
    Upheld L m m' ∧ FunctionFramed L m'.heap bound := by
  cases hrun
  obtain ⟨F, hc, hd⟩ := hmethod
  have hbinds : Bindings.binds [(thisName, .object o)] thisName = true := by
    simp [Bindings.binds, Bindings.get?_cons]
  have hchained := hc.push (h := m.heap) hbinds
  exact ⟨.newScope hm (hc.lt_size hm.heap.global.lt) fun _ => ⟨o, rfl⟩, ⟨_, hchained, hd⟩, fun _ => hchained.1⟩

/-- Parameters are not spelled `this`. -/
theorem binds_ofParameters_of_ne {params : List Ident} {args : List Value}
    (h : ∀ param ∈ params, param.name ≠ thisName) : (Bindings.ofParameters params args).binds thisName = false := by
  unfold Bindings.ofParameters
  rw [Bindings.binds_foldl_insert, Bool.or_eq_false_iff]
  refine ⟨rfl, List.any_eq_false.mpr fun pair hpair => ?_⟩
  simpa using h pair.1 (List.of_mem_zip hpair).1

theorem Steady.method (hm : Steady L m) {id : ClassId} {name : String} {method : Function}
    (h : (m.heap.cls id).method? name = some method) : MethodFramed L m.heap method := by
  unfold Class.method? at h
  obtain ⟨before, after, happ, -⟩ := List.lookup_eq_some_iff.mp h
  exact hm.heap.methods id (name, method) (by simp [happ])

theorem upheld_read {β : Type} {g : Heap → α} {f : α → Exec β} (h : Upheld L m ((f (g m.heap)).leaves m)) :
    Upheld L m ((Exec.read g >>= f).leaves m) :=
  h

theorem upheld_property (hm : Steady L m) (object : Value) (name : Ident) :
    Upheld L m ((Exec.property object name).leaves m) := by
  unfold Exec.property
  cases object with
  | object o =>
      apply upheld_read
      cases (m.heap.object o).fields.get? name.name with
      | some value => exact .refl hm
      | none =>
          apply upheld_read
          cases hmethod : (m.heap.cls (m.heap.object o).cls).method? name.name with
          | none => exact .refl hm
          | some method =>
              obtain ⟨hk, hf⟩ := upheld_bindMethod (o := o) hm (hm.method hmethod) rfl
              exact hk.trans (.newFunction hk.steady hf)
  | null | bool | number | string | array | function | native | classRef => exact .refl hm

/-- A declared function is closed over the current scope. -/
theorem upheld_declareFunction (hm : Steady L m) (hc : Chained m.heap m.current F) {decl : FunctionDecl}
    (hname : decl.name.name ≠ thisName) (hd : decl.Framed L F) :
    Upheld L m ((Exec.declareFunction decl).leaves m) := by
  have hk : Upheld L m { m with heap := m.heap.addFunction ⟨decl, m.current, false⟩ } :=
    .newFunction hm ⟨⟨F, hc, hd⟩, nofun⟩
  exact hk.trans (.define hk.steady hk.steady.current hname _)

/-- The name of a declared class is bound, then assigned, in the current scope. -/
theorem upheld_declareClass (hm : Steady L m) (hc : Chained m.heap m.current F) {name : Ident}
    {methods : List FunctionDecl} (hname : name.name ≠ thisName)
    (hd : FunctionDecl.FramedAll L (true :: F) methods) : Upheld L m ((Exec.declareClass name methods).leaves m) := by
  have hk₁ : Upheld L m { m with heap := m.heap.define m.current name.name .null } :=
    .define hm hm.current hname _
  have hmethods := methodsOf_framed (hc.held hk₁.held) hd
  have hk₂ := Upheld.heap hk₁.steady (hk₁.steady.heap.addClass (c := ⟨name.name, methodsOf m.current methods⟩) hmethods)
    (.addClass _ _)
  have hbinds : ((m.heap.define m.current name.name .null).scope m.current).names.binds name.name = true := by
    rw [Heap.binds_define, decide_eq_true ⟨rfl, hm.current.lt⟩]
    simp
  have hrun : (Exec.declareClass name methods).leaves m = (Exec.assignFrom m.current name
      (.classRef (m.heap.define m.current name.name .null).classes.size)).leaves
      { m with heap := (m.heap.define m.current name.name .null).addClass ⟨name.name, methodsOf m.current methods⟩ } := rfl
  rw [hrun]
  unfold Exec.leaves Exec.assignFrom
  rw [Heap.owner?_of_binds (h := (m.heap.define m.current name.name .null).addClass _) hbinds]
  exact (hk₁.trans hk₂).trans (.define hk₂.steady hk₂.steady.current hname _)

/-- An action in a new scope that does not bind `this`. -/
theorem upheld_inScope (hm : Steady L m) {scope : ScopeId} {x : Exec α}
    (h : Upheld L { m with current := scope } (x.leaves { m with current := scope })) :
    Upheld L m ((Exec.inScope scope x).leaves m) := by
  rw [Exec.leaves_inScope]
  exact ⟨⟨h.steady.heap, h.steady.table, h.held.plain _ hm.current⟩, rfl, h.held⟩

end Actions

end Scriptlet
