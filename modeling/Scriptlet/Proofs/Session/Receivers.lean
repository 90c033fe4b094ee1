import Scriptlet.Proofs.Run.Receivers
import Scriptlet.Proofs.Session.Layouts

/-!
# `this` never changes

* `Session.Passes steps s sources h` — the heap `h` is one that the runs of the sources come to: between two runs, or
  where a task starts or ends.
* `Session.KeepsReceivers steps s sources` — what is true of `this` in all these heaps.

Principal result: `receivers_never_change`.
-/

set_option autoImplicit false

namespace Scriptlet

open Point

/-! ## Receivers -/

namespace Heap

variable {h : Heap} {i j : ScopeId}

theorem ownerWithin_eq_owner? (hnested : h.Nested) (name : String) {bound : Nat} (hi : i < bound) :
    h.ownerWithin name bound i = h.owner? i name := by
  unfold owner?
  induction i using Nat.strongRecOn generalizing bound with
  | ind i ih =>
      cases bound with
      | zero => exact absurd hi (Nat.not_lt_zero i)
      | succ bound =>
          rw [ownerWithin, ownerWithin]
          cases houter : (h.scope i).enclosing with
          | none => rfl
          | some outer =>
              have hlt := hnested i outer houter
              simp only [ih outer hlt (Nat.lt_of_lt_of_le hlt (Nat.le_of_lt_succ hi)), ih outer hlt hlt]

/-- A scope that does not bind `this` has the receiver of the scope around it. -/
theorem receiver?_enclosing (hnested : h.Nested) (hj : (h.scope i).enclosing = some j) (hi : h.bindsThis i = false) :
    h.receiver? i = h.receiver? j := by
  have hfree : (h.scope i).names.binds thisName = false := hi
  have howner : h.owner? i thisName = h.owner? j thisName := by
    rw [owner?, ownerWithin, hfree, hj]
    exact ownerWithin_eq_owner? hnested thisName (hnested i j hj)
  rw [receiver?, search?, howner, ← search?, ← receiver?]

/-- A scope that binds `this` has its own receiver. -/
theorem receiver?_of_names {o : ObjectId} (hnames : (h.scope i).names = [(thisName, .object o)]) :
    h.receiver? i = some (.object o) := by
  have hget : (h.scope i).names.get? thisName = some (.object o) := by
    rw [hnames, Bindings.get?_cons, if_pos rfl]
  have hbinds : (h.scope i).names.binds thisName = true := by rw [Bindings.binds, hget]; rfl
  rw [receiver?, search?, owner?_of_binds hbinds]
  exact hget

end Heap

/-! ## What tasks yield -/

section Tasks

variable {L : Layout} {F : Frame} {steps : Nat} {m m' : Machine}

/-- The value of `this` is the receiver of the current scope. -/
theorem Point.FramedIn.this {id : NodeId} {line : Nat} (h : FramedIn L F ⟨steps + 1, .eval (.this id line), m⟩) :
    ∃ o, m.heap.receiver? m.current = some (.object o) ∧
      evaluate (steps + 1) (.this id line) m = .ok (.object o) m := by
  obtain ⟨-, d, hd, hfind⟩ := (h.task ⟨id, thisName, .read⟩ List.mem_cons_self).this rfl
  obtain ⟨owner, howner, hbinds, hsearch⟩ := h.chained.receiver h.steady.heap.nested hfind
  obtain ⟨o, hnames⟩ := h.steady.heap.exact owner hbinds
  have hget : (m.heap.scope owner).names.get? thisName = some (.object o) := by
    rw [hnames, Bindings.get?_cons, if_pos rfl]
  refine ⟨o, ?_, ?_⟩
  · rw [Heap.receiver?, Heap.search?, hsearch]
    exact hget
  · have htable : m.table.distance? id = some d := by rw [h.steady.table, hd]
    unfold evaluate
    simp only [Exec.lookUp, htable, Exec.readAt, Heap.readAt, howner, hget]

/-- After the body of an initializer its closure still binds `this` to the same object. -/
theorem Point.FramedIn.readThis {f : Function} {args : List Value} {scope : ScopeId} {flow : Flow} {m₁ m₂ : Machine}
    (h : FramedIn L F ⟨steps + 1, .invoke f args, m⟩) (hinit : f.isInitializer = true)
    (hscope : Exec.newScope f.closure (.ofParameters f.decl.params args) m = .ok scope m₁)
    (hbody : Exec.inScope scope (executeAll steps f.decl.body) m₁ = .ok flow m₂) :
    ∃ o, (m.heap.scope f.closure).names = [(thisName, .object o)] ∧
      Exec.readAt f.closure 0 thisName m₂ = .ok (.object o) m₂ := by
  have hf : FunctionFramed L m.heap f := h.task
  have hthis := hf.this hinit
  obtain ⟨o, hnames⟩ := h.steady.heap.exact f.closure hthis
  obtain ⟨hk₁, hP⟩ := framed_body steps h.steady hf hscope
  have hk₂ := upheld_inScope hk₁.steady (stepsUphold L steps hP)
  rw [Exec.leaves_of_ok hbody] at hk₂
  have hkept : m₂.heap.scope f.closure = m.heap.scope f.closure := (hk₁.trans hk₂).held.bound _ hthis
  have hget : (m₂.heap.scope f.closure).names.get? thisName = some (.object o) := by
    rw [hkept, hnames, Bindings.get?_cons, if_pos rfl]
  refine ⟨o, hnames, ?_⟩
  simp only [Exec.readAt, Heap.readAt, Heap.ancestor?, hget]

/-- A call of an initializer yields the object that its closure binds `this` to. -/
theorem Point.FramedIn.initializer {f : Function} {args : List Value} (h : FramedIn L F ⟨steps, .invoke f args, m⟩)
    (hinit : f.isInitializer = true) :
    ∃ o, (m.heap.scope f.closure).names = [(thisName, .object o)] ∧
      ∀ v m', invoke steps f args m = .ok v m' → v = .object o := by
  have hf : FunctionFramed L m.heap f := h.task
  obtain ⟨o, hnames⟩ := h.steady.heap.exact f.closure (hf.this hinit)
  refine ⟨o, hnames, fun v m' hrun => ?_⟩
  cases steps with
  | zero => cases hrun
  | succ steps =>
      unfold invoke at hrun
      obtain ⟨scope, m₁, hscope, hrest⟩ := Exec.bind_ok hrun
      obtain ⟨flow, m₂, hbody, hlast⟩ := Exec.bind_ok hrest
      obtain ⟨o', hnames', hread⟩ := h.readThis hinit hscope hbody
      rw [hnames] at hnames'
      cases hnames'
      rw [if_pos hinit, hread] at hlast
      cases hlast
      rfl

/-- A method that is read from an object is bound to the object in a new scope. -/
theorem evaluate_get_method {object : Expr} {name : Ident} {m₁ : Machine} {o : ObjectId} {method : Function}
    (hobject : evaluate steps object m = .ok (.object o) m₁)
    (hfield : (m₁.heap.object o).fields.get? name.name = none)
    (hmethod : (m₁.heap.cls (m₁.heap.object o).cls).method? name.name = some method) :
    ∃ m', evaluate (steps + 1) (.get object name) m = .ok (.function m₁.heap.functions.size) m' ∧
      m'.heap.function m₁.heap.functions.size = { method with closure := m₁.heap.scopes.size } ∧
      m'.heap.scope m₁.heap.scopes.size = ⟨some method.closure, [(thisName, .object o)]⟩ := by
  refine ⟨⟨(m₁.heap.addScope ⟨some method.closure, [(thisName, .object o)]⟩).addFunction
    { method with closure := m₁.heap.scopes.size }, m₁.current, m₁.table, m₁.sink, m₁.clock, m₁.ticks⟩, ?_, ?_, ?_⟩
  · unfold evaluate
    simp only [Bind.bind, EStateM.bind, hobject, Exec.property, Exec.read, hfield, hmethod]
    rfl
  · rw [Heap.function_addFunction]
    exact if_pos rfl
  · show (m₁.heap.addScope _).scope m₁.heap.scopes.size = _
    rw [Heap.scope_addScope, if_pos rfl]

/-- **A call of a class that ends well yields a new instance of the class.** -/
theorem Point.FramedIn.instance {c : ClassId} {args : List Value} {line : Nat} {v : Value}
    (h : FramedIn L F ⟨steps, .callWith (.classRef c) args line, m⟩)
    (hrun : callWith steps (.classRef c) args line m = .ok v m') :
    v = .object m.heap.objects.size ∧ m.heap.objects.size < m'.heap.objects.size ∧
      (m'.heap.object m.heap.objects.size).cls = c := by
  have hnew : ((m.heap.addObject ⟨c, []⟩).object m.heap.objects.size).cls = c := by
    rw [Heap.object_addObject, if_pos rfl]
  have hsize : m.heap.objects.size < (m.heap.addObject ⟨c, []⟩).objects.size := by simp [Heap.addObject]
  cases steps with
  | zero => cases hrun
  | succ steps =>
      have hk₁ : Upheld L m { m with heap := m.heap.addObject ⟨c, []⟩ } := .newObject h.steady _
      unfold callWith at hrun
      obtain ⟨object, m₁, hobject, hrest⟩ := Exec.bind_ok hrun
      cases hobject
      obtain ⟨found, m₁, hfound, hrest⟩ := Exec.bind_ok hrest
      injection hfound with hmethod hm₁
      subst hm₁
      cases found with
      | none =>
          cases hrest
          exact ⟨rfl, hsize, hnew⟩
      | some method =>
          obtain ⟨bound, m₂, hbound, hrest⟩ := Exec.bind_ok hrest
          obtain ⟨result, m₃, hinvoke, hrest⟩ := Exec.bind_ok hrest
          cases hrest
          obtain ⟨hk₂, hf⟩ := upheld_bindMethod hk₁.steady (hk₁.steady.method hmethod) hbound
          have hP : Framed L ⟨steps, .invoke bound args, m₂⟩ := h.at (hk₁.trans hk₂) hf
          have hk₃ := stepsUphold L steps hP
          rw [leaves, Exec.leaves_of_ok hinvoke] at hk₃
          have hheld := (hk₂.trans hk₃).held
          exact ⟨rfl, Nat.lt_of_lt_of_le hsize hheld.objects, (hheld.classes _ hsize).trans hnew⟩

end Tasks

namespace Session

/-! ## Between runs -/

/-- A session as it is between runs, with a framed heap. -/
structure Framed (s : Session) : Prop where
  fits : s.Fits false
  heap : HeapFramed (s.layout false) s.machine.heap

section Runs

variable {s : Session} {steps : Nat} {source : String} {sources : List String} {Q : Point}

/-- **The program of a source starts at a framed point.** -/
theorem Framed.start {p : Program} (h : s.Framed)
    (hfound : (analyse s.machine.table s.nextId source).program = some p) :
    (s.start steps source p).Framed (s.layoutAfter false source) := by
  obtain ⟨hparse, herrors, htable⟩ := analyse_program hfound
  have hspans := parse_spans hparse
  have hheap := h.heap.extend (layout_extends false s source)
  have hcurrent : s.machine.heap.Plain s.machine.current := h.fits.current ▸ hheap.global
  refine ⟨[], ⟨hheap, rfl, hcurrent⟩, h.fits.current, ?_⟩
  refine resolve_framed herrors hspans.nodup ?_ ?_ htable (parse_idents hparse)
  · exact fun id hid => h.fits.unused id (hspans.bounds id hid).1
  · intro id hid
    show id < (analyse s.machine.table s.nextId source).nextId
    rw [analyse_nextId]
    exact (hspans.bounds id hid).2

/-- The end of a run at top level does not change the heap. -/
theorem heap_finish (m : Machine) (result : Except RunError Unit) :
    (Exec.leaves (fun _ => m.finish result) m).heap = m.heap := by
  unfold Exec.leaves Machine.finish
  simp only
  split <;> rename_i hr <;> split at hr <;> cases hr <;> rfl

theorem heap_interpret (steps : Nat) (p : Program) (m : Machine) :
    ((interpret steps p).leaves m).heap = ((executeTop steps p).leaves m).heap := by
  cases hrun : executeTop steps p m with
  | ok a m' =>
      rw [Exec.leaves_of_ok hrun, ← heap_finish m' (.ok ())]
      simp only [Exec.leaves, interpret, hrun]
  | error halt m' =>
      have hleaves : (executeTop steps p).leaves m = m' := by rw [Exec.leaves, hrun]
      cases halt with
      | error e =>
          rw [hleaves, ← heap_finish m' (.error e)]
          simp only [Exec.leaves, interpret, hrun]
      | fault f | exhausted =>
          rw [hleaves]
          simp only [Exec.leaves, interpret, hrun]

/-- A run leaves the heap that its program leaves. -/
theorem heap_run {p : Program} (hfound : (analyse s.machine.table s.nextId source).program = some p) :
    (s.run steps source).2.machine.heap = (s.start steps source p).leaves.heap := by
  have hinterpret := heap_interpret steps p
    { s.machine with table := (analyse s.machine.table s.nextId source).table }
  rw [Session.start, leaves, ← hinterpret]
  unfold Session.run Exec.leaves
  simp only [hfound]
  split <;> rename_i hrun <;> rw [hrun]

theorem heap_run_of_none (hfound : (analyse s.machine.table s.nextId source).program = none) :
    (s.run steps source).2.machine.heap = s.machine.heap := by
  unfold Session.run
  simp only [hfound]

/-- **What a run does to the heap of the session.** -/
theorem Framed.run (h : s.Framed) (steps : Nat) (source : String) :
    (s.run steps source).2.Framed ∧ s.machine.heap.Held (s.run steps source).2.machine.heap := by
  have hheap : HeapFramed (s.layoutAfter false source) (s.run steps source).2.machine.heap ∧
      s.machine.heap.Held (s.run steps source).2.machine.heap := by
    cases hfound : (analyse s.machine.table s.nextId source).program with
    | none =>
        rw [heap_run_of_none hfound]
        exact ⟨h.heap.extend (layout_extends false s source), .refl _⟩
    | some p =>
        have hstart : (s.start steps source p).Framed _ := h.start hfound
        have hk := hstart.steadies.1
        rw [heap_run hfound]
        exact ⟨hk.steady.heap, hk.held⟩
  have hguarded : false = true → Guarded source := nofun
  obtain ⟨m', hsession, hk, -⟩ := h.fits.run_kept hguarded steps
  refine ⟨⟨h.fits.run hguarded, ?_⟩, hheap.2⟩
  have hframed := hheap.1
  rw [hsession] at hframed ⊢
  unfold layout
  rw [hk.ready.table]
  exact hframed

/-- What holds between two runs is held to the end. -/
theorem Framed.after (h : s.Framed) : (s.after steps sources).Framed ∧
    s.machine.heap.Held (s.after steps sources).machine.heap := by
  induction sources generalizing s with
  | nil => exact ⟨h, .refl _⟩
  | cons source rest ih =>
      obtain ⟨hrun, hheld⟩ := h.run steps source
      unfold Session.after
      split
      · exact ⟨(ih hrun).1, hheld.trans (ih hrun).2⟩
      · exact ⟨hrun, hheld⟩

/-- **Every point of the runs is framed, and what holds after its task is held to the end.** -/
theorem Framed.visits (hvisit : Visits steps s sources Q) (h : s.Framed) :
    (∃ L, Q.Framed L) ∧ Q.leaves.heap.Held (s.after steps sources).machine.heap := by
  induction hvisit with
  | @here s source rest p Q hfound hvisit =>
      obtain ⟨hQ, hheld⟩ := (h.start hfound).visits hvisit
      obtain ⟨hrun, -⟩ := h.run steps source
      rw [← heap_run hfound] at hheld
      refine ⟨⟨_, hQ⟩, ?_⟩
      unfold Session.after
      split
      · exact hheld.trans hrun.after.2
      · exact hheld
  | @later s source rest status Q hending _ ih =>
      obtain ⟨hrun, -⟩ := h.run steps source
      unfold Session.after
      rw [hending]
      exact ih hrun

/-- A new session is framed. -/
theorem framed_initial (sink : Sink) (clock : Nat → Float) : (Session.initial sink clock).Framed := by
  refine ⟨fits_initial false sink clock, ?_⟩
  have hscope : ∀ i, (Heap.empty.addNative .clock).scope i = ⟨none, []⟩ := by
    intro i
    cases i with
    | zero => rfl
    | succ i => exact Heap.scope_of_size_le (Nat.succ_le_succ (Nat.zero_le i))
  have hempty : HeapFramed ((Session.initial sink clock).layout false) (Heap.empty.addNative .clock) := by
    refine ⟨rfl, ⟨Nat.zero_lt_one, rfl⟩, fun i j hj => ?_, fun i hi => ?_, fun _ => ⟨⟨[], rfl, nofun, trivial⟩, nofun⟩,
      nofun⟩
    · rw [hscope] at hj
      cases hj
    · rw [Heap.bindsThis, hscope] at hi
      cases hi
  exact hempty.define hempty.global (by decide) _

end Runs

/-! ## Whole sessions -/

/-- The heaps that the runs of sources come to: between two runs, and where a task starts or ends. -/
def Passes (steps : Nat) (s : Session) (sources : List String) (h : Heap) : Prop :=
  (∃ before, before <+: sources ∧ h = (s.after steps before).machine.heap) ∨
    ∃ Q, Visits steps s sources Q ∧ (h = Q.machine.heap ∨ h = Q.leaves.heap)

/-- What is true of `this` while sources run one after another. -/
structure KeepsReceivers (steps : Nat) (s : Session) (sources : List String) : Prop where
  /-- A scope that binds `this` binds it to an object and binds nothing else. -/
  exact : ∀ {h : Heap}, s.Passes steps sources h → ∀ i, h.bindsThis i = true →
    ∃ o, (h.scope i).names = [(thisName, .object o)]
  /-- It is the same in every heap in which it exists. -/
  constant : ∀ {h h' : Heap}, s.Passes steps sources h → s.Passes steps sources h' → ∀ i, h.bindsThis i = true →
    i < h'.scopes.size → h'.scope i = h.scope i
  /-- A method that is read from an object gets such a scope, which binds `this` to the object. -/
  methods : ∀ {left object name m m₁ o method}, Visits steps s sources ⟨left + 1, .eval (.get object name), m⟩ →
    evaluate left object m = .ok (.object o) m₁ → (m₁.heap.object o).fields.get? name.name = none →
    (m₁.heap.cls (m₁.heap.object o).cls).method? name.name = some method →
    ∃ m', evaluate (left + 1) (.get object name) m = .ok (.function m₁.heap.functions.size) m' ∧
      s.Passes steps sources m'.heap ∧
      m'.heap.function m₁.heap.functions.size = { method with closure := m₁.heap.scopes.size } ∧
      m'.heap.scope m₁.heap.scopes.size = ⟨some method.closure, [(thisName, .object o)]⟩
  /-- So does the constructor of a class that is called, with the new instance. -/
  constructors : ∀ {left c args line m method}, Visits steps s sources ⟨left + 1, .callWith (.classRef c) args line, m⟩ →
    (m.heap.cls c).method? constructorName = some method →
    ∃ m', Visits steps s sources ⟨left, .invoke { method with closure := m.heap.scopes.size } args, m'⟩ ∧
      m'.heap.scope m.heap.scopes.size = ⟨some method.closure, [(thisName, .object m.heap.objects.size)]⟩
  /-- The receiver of a scope is what the scope binds `this` to, or else the receiver of the scope around it. -/
  receivers : ∀ {h : Heap}, s.Passes steps sources h → ∀ i,
    (∀ o, (h.scope i).names = [(thisName, .object o)] → h.receiver? i = some (.object o)) ∧
    ∀ j, (h.scope i).enclosing = some j → h.bindsThis i = false → h.receiver? i = h.receiver? j
  /-- It never changes. -/
  lasting : ∀ {h h' : Heap}, s.Passes steps sources h → s.Passes steps sources h' → ∀ i, i < h.scopes.size →
    i < h'.scopes.size → h'.receiver? i = h.receiver? i
  /-- Wherever `this` is evaluated, its value is the receiver of the current scope, and that is an object. -/
  this : ∀ {left id line m}, Visits steps s sources ⟨left + 1, .eval (.this id line), m⟩ →
    ∃ o, m.heap.receiver? m.current = some (.object o) ∧
      evaluate (left + 1) (.this id line) m = .ok (.object o) m
  /-- The closure of a constructor binds `this`, and a call that ends well yields the object that it is bound to. -/
  initializers : ∀ {left f args m}, Visits steps s sources ⟨left, .invoke f args, m⟩ → f.isInitializer = true →
    ∃ o, (m.heap.scope f.closure).names = [(thisName, .object o)] ∧
      ∀ v m', invoke left f args m = .ok v m' → v = .object o
  /-- A call of a class that ends well yields a new object, which is an instance of the class. -/
  instances : ∀ {left c args line m v m'}, Visits steps s sources ⟨left, .callWith (.classRef c) args line, m⟩ →
    callWith left (.classRef c) args line m = .ok v m' →
    v = .object m.heap.objects.size ∧ m.heap.objects.size < m'.heap.objects.size ∧
      (m'.heap.object m.heap.objects.size).cls = c

theorem Visits.calls {steps : Nat} {s : Session} {sources : List String} {Q R : Point} (h : Visits steps s sources Q)
    (hcall : Q.Calls R) : Visits steps s sources R := by
  induction h with
  | here hfound hvisit => exact .here hfound (hvisit.calls hcall)
  | later hending _ ih => exact .later hending (ih hcall)

section Passes

variable {s : Session} {steps : Nat} {sources : List String} {h h' : Heap} {i : ScopeId}

theorem Framed.after_prefix (hs : s.Framed) {before : List String} (hbefore : before <+: sources) :
    (s.after steps before).Framed ∧
      (s.after steps before).machine.heap.Held (s.after steps sources).machine.heap := by
  induction before generalizing s sources with
  | nil => exact ⟨hs, hs.after.2⟩
  | cons source before ih =>
      obtain ⟨rest, rfl⟩ := hbefore
      obtain ⟨hrun, -⟩ := hs.run steps source
      rw [List.cons_append, Session.after, Session.after]
      split
      · exact ih hrun (List.prefix_append before rest)
      · exact ⟨hrun, .refl _⟩

/-- **The heaps of a session are framed, and what holds in them is held to the end.** -/
theorem Framed.passes (hs : s.Framed) (hp : s.Passes steps sources h) :
    (∃ L, HeapFramed L h) ∧ h.Held (s.after steps sources).machine.heap := by
  rcases hp with ⟨before, hbefore, rfl⟩ | ⟨Q, hvisit, hQ⟩
  · obtain ⟨hframed, hheld⟩ := hs.after_prefix hbefore
    exact ⟨⟨_, hframed.heap⟩, hheld⟩
  · obtain ⟨⟨L, hframed⟩, hheld⟩ := Framed.visits hvisit hs
    have hk := hframed.steadies.1
    obtain ⟨F, hin⟩ := hframed
    rcases hQ with rfl | rfl
    · exact ⟨⟨L, hin.steady.heap⟩, hk.held.trans hheld⟩
    · exact ⟨⟨L, hk.steady.heap⟩, hheld⟩

/-- A scope of `this` is the same in all heaps in which it exists. -/
theorem Framed.constant (hs : s.Framed) (hp : s.Passes steps sources h) (hp' : s.Passes steps sources h')
    (hi : h.bindsThis i = true) (hi' : i < h'.scopes.size) : h'.scope i = h.scope i := by
  have g := (hs.passes hp).2
  have g' := (hs.passes hp').2
  -- Both heaps are held to the end, where the scope is that of each of them.
  have hend := g.bound i hi
  have hbinds : h'.bindsThis i = true := by
    rw [← g'.bindsThis hi', g.bindsThis (Heap.lt_size_of_bindsThis hi), hi]
  rw [← g'.bound i hbinds, hend]

theorem Framed.lasting (hs : s.Framed) (hp : s.Passes steps sources h) (hp' : s.Passes steps sources h')
    (hi : i < h.scopes.size) (hi' : i < h'.scopes.size) : h'.receiver? i = h.receiver? i := by
  obtain ⟨⟨L, hh⟩, g⟩ := hs.passes hp
  obtain ⟨⟨L', hh'⟩, g'⟩ := hs.passes hp'
  rw [← g.receiver? hh.nested hi, g'.receiver? hh'.nested hi']

end Passes

/-- **`this` never changes.**  Whatever sources run one after another in a session: a scope made to bind a method to an
object binds `this` to the object, and nothing else, for ever; so `this` has the same value wherever it is evaluated
inside the method, a constructor always yields the object it is bound to, and a class yields new instances of its
own. -/
theorem receivers_never_change (sink : Sink) (clock : Nat → Float) (steps : Nat) (sources : List String) :
    (Session.initial sink clock).KeepsReceivers steps sources := by
  have hs := framed_initial sink clock
  have hframed : ∀ {Q}, Visits steps (Session.initial sink clock) sources Q → ∃ L F, Q.FramedIn L F := by
    intro Q hvisit
    obtain ⟨⟨L, F, hQ⟩, -⟩ := Framed.visits hvisit hs
    exact ⟨L, F, hQ⟩
  refine ⟨?_, fun hp hp' i => hs.constant hp hp', ?_, ?_, ?_, fun hp hp' i => hs.lasting hp hp', ?_, ?_, ?_⟩
  · intro h hp i hi
    obtain ⟨⟨L, hh⟩, -⟩ := hs.passes hp
    exact hh.exact i hi
  · intro left object name m m₁ o method hvisit hobject hfield hmethod
    obtain ⟨m', hrun, hfunction, hscope⟩ := evaluate_get_method hobject hfield hmethod
    have hleaves : m'.heap = (leaves ⟨left + 1, .eval (.get object name), m⟩).heap := by
      rw [leaves, Exec.leaves_of_ok hrun]
    exact ⟨m', hrun, .inr ⟨_, hvisit, .inr hleaves⟩, hfunction, hscope⟩
  · intro left c args line m method hvisit hmethod
    have hobject : Exec.newObject c m = .ok m.heap.objects.size { m with heap := m.heap.addObject ⟨c, []⟩ } := rfl
    have hcall : Calls ⟨left + 1, .callWith (.classRef c) args line, m⟩ _ := .construct hobject hmethod rfl
    refine ⟨_, hvisit.calls hcall, ?_⟩
    show ((m.heap.addObject ⟨c, []⟩).addScope _).scope m.heap.scopes.size = _
    rw [Heap.scope_addScope]
    exact if_pos rfl
  · intro h hp i
    obtain ⟨⟨L, hh⟩, -⟩ := hs.passes hp
    exact ⟨fun o hnames => Heap.receiver?_of_names hnames, fun j hj hi => Heap.receiver?_enclosing hh.nested hj hi⟩
  · intro left id line m hvisit
    obtain ⟨L, F, hQ⟩ := hframed hvisit
    exact hQ.this
  · intro left f args m hvisit hinit
    obtain ⟨L, F, hQ⟩ := hframed hvisit
    exact hQ.initializer hinit
  · intro left c args line m v m' hvisit hrun
    obtain ⟨L, F, hQ⟩ := hframed hvisit
    exact hQ.instance hrun

end Session

end Scriptlet
