import Scriptlet.Proofs.Alike.Heaps

/-!
# Running programs that are alike

Programs that are alike do the same: they compute the same values, write the same output, and end in the same way.
The first run is the measure: if its steps are used up, nothing is said, and the second run may have more steps.

* `Machine.Alike V ρ Φ m m'` — corresponding machines, where `Φ` are the renamings of the local scopes around the
  current one.
* `Halt.Alike` — corresponding ends: the same error, at lines that stand for each other.
* `Corresponds` — corresponding results; `Exec.Alike V Φ x x'` — actions with corresponding results.

Principal results: `stepsAlike` — every task of a program that is like another; `interpret_alike` — whole programs.
-/

set_option autoImplicit false

namespace Scriptlet

/-! ## Machines -/

/-- Sinks alike: the number of flushes may differ. -/
structure Sink.Alike (s s' : Sink) : Prop where
  written : s'.written = s.written
  limit : s'.limit = s.limit
  flushFails : s'.flushFails = s.flushFails

theorem Sink.Alike.take {s s' : Sink} (h : s.Alike s') (bytes : ByteArray) :
    (s.take bytes).Alike (s'.take bytes) := by
  have hfitting : s'.fitting bytes = s.fitting bytes := by
    unfold Sink.fitting
    rw [h.limit, h.written]
  refine ⟨?_, h.limit, h.flushFails⟩
  unfold Sink.take
  rw [hfitting, h.written]

theorem Sink.Alike.hasRoom {s s' : Sink} (h : s.Alike s') (count : Nat) : s'.hasRoom count = s.hasRoom count := by
  unfold Sink.hasRoom
  rw [h.limit, h.written]

/-- Machines alike, in local scopes with the renamings `Φ`. -/
structure Machine.Alike (V : Variation) (ρ : Renamings) (Φ : List NameMap) (m m' : Machine) : Prop where
  heap : m.heap.Alike V ρ m'.heap
  current : m'.current = m.current
  marked : Marked ρ m.heap m.current Φ
  table : m.table = V.table
  table' : m'.table = V.table'
  sink : m.sink.Alike m'.sink
  clock : m'.clock = m.clock
  ticks : m'.ticks = m.ticks

section Machines

variable {V : Variation} {ρ ρ₁ : Renamings} {Φ : List NameMap} {m m' : Machine}

/-- A change of the heaps. -/
theorem Machine.Alike.withHeap (h : m.Alike V ρ Φ m') {h₁ h₁' : Heap} (hheap : h₁.Alike V ρ₁ h₁')
    (hm : Moved ρ ρ₁ m.heap h₁) :
    Machine.Alike V ρ₁ Φ { m with heap := h₁ } { m' with heap := h₁' } :=
  ⟨hheap, h.current, h.marked.move hm, h.table, h.table', h.sink, h.clock, h.ticks⟩

/-- The current scope has the innermost renaming. -/
theorem Machine.Alike.innermost (h : m.Alike V ρ Φ m') : ρ m.current = NameMap.innermost Φ := by
  have hmarked := h.marked
  cases Φ with
  | nil =>
      rw [show m.current = globalScope from hmarked]
      exact h.heap.scopes.global
  | cons σ Φ => exact hmarked.1

theorem Machine.Alike.current_lt (h : m.Alike V ρ Φ m') : m.current < m.heap.scopes.size := by
  have hmarked := h.marked
  cases Φ with
  | nil =>
      rw [show m.current = globalScope from hmarked]
      exact h.heap.scopes.inhabited
  | cons σ Φ =>
      obtain ⟨-, j, hj, -⟩ := hmarked
      exact Heap.lt_size_of_enclosing hj

end Machines

/-! ## Results -/

/-- Faults alike. -/
inductive Fault.Alike (V : Variation) : Fault → Fault → Prop where
  | missingName {σ : NameMap} (name : String) (distance : Nat) : V.maps σ →
      Fault.Alike V (.missingName name distance) (.missingName (σ name) distance)
  | missingScope : Fault.Alike V .missingScope .missingScope

/-- Ends alike. -/
inductive Halt.Alike (V : Variation) : Halt → Halt → Prop where
  | script {line line' : Nat} (fault : ScriptFault) : V.lines line line' →
      Halt.Alike V (.error (.script line fault)) (.error (.script line' fault))
  | sink (e : SinkError) : Halt.Alike V (.error (.sink e)) (.error (.sink e))
  | fault {f f' : Fault} : f.Alike V f' → Halt.Alike V (.fault f) (.fault f')

/-- Corresponding results of two runs that started with the heap `h`. -/
inductive Corresponds {α : Type} (V : Variation) (ρ : Renamings) (Φ : List NameMap) (h : Heap) :
    EStateM.Result Halt Machine α → EStateM.Result Halt Machine α → Prop where
  | ok {ρ₁ : Renamings} {a : α} {m₁ m₁' : Machine} : m₁.Alike V ρ₁ Φ m₁' → Moved ρ ρ₁ h m₁.heap →
      Corresponds V ρ Φ h (.ok a m₁) (.ok a m₁')
  | halted {halt halt' : Halt} {m₁ m₁' : Machine} : halt.Alike V halt' → m₁.sink.Alike m₁'.sink →
      Corresponds V ρ Φ h (.error halt m₁) (.error halt' m₁')
  | exhausted {m₁ : Machine} {r' : EStateM.Result Halt Machine α} :
      Corresponds V ρ Φ h (.error .exhausted m₁) r'

/-- Actions with corresponding results. -/
def Exec.Alike {α : Type} (V : Variation) (Φ : List NameMap) (x x' : Exec α) : Prop :=
  ∀ (ρ : Renamings) (m m' : Machine), m.Alike V ρ Φ m' → Corresponds V ρ Φ m.heap (x m) (x' m')

section Bind

variable {V : Variation} {ρ ρ₁ : Renamings} {Φ : List NameMap} {h h₁ : Heap} {α β : Type}

/-- Runs that started later. -/
theorem Corresponds.from {r r' : EStateM.Result Halt Machine α} (hm : Moved ρ ρ₁ h h₁)
    (hr : Corresponds V ρ₁ Φ h₁ r r') : Corresponds V ρ Φ h r r' := by
  cases hr with
  | ok hmachine hm' => exact .ok hmachine (hm.trans hm')
  | halted hhalt hsink => exact .halted hhalt hsink
  | exhausted => exact .exhausted

theorem Corresponds.bind {x x' : Exec α} {k k' : α → Exec β} {m m' : Machine}
    (hx : Corresponds V ρ Φ h (x m) (x' m'))
    (hk : ∀ {ρ₁ : Renamings} {m₁ m₁' : Machine} (a : α), m₁.Alike V ρ₁ Φ m₁' → Moved ρ ρ₁ h m₁.heap →
      Corresponds V ρ₁ Φ m₁.heap (k a m₁) (k' a m₁')) :
    Corresponds V ρ Φ h ((x >>= k) m) ((x' >>= k') m') := by
  simp only [Bind.bind, EStateM.bind]
  generalize x m = r at hx ⊢
  generalize x' m' = r' at hx ⊢
  cases hx with
  | @ok _ a _ _ hmachine hm => exact (hk a hmachine hm).from hm
  | halted hhalt hsink => exact .halted hhalt hsink
  | exhausted => exact .exhausted

theorem Exec.Alike.bind {x x' : Exec α} {k k' : α → Exec β} (hx : Exec.Alike V Φ x x')
    (hk : ∀ a, Exec.Alike V Φ (k a) (k' a)) : Exec.Alike V Φ (x >>= k) (x' >>= k') :=
  fun _ _ _ hm => (hx _ _ _ hm).bind fun a hm₁ _ => hk a _ _ _ hm₁

end Bind

/-! ## Actions -/

namespace Exec

section Actions

variable {V : Variation} {Φ : List NameMap} {α : Type}

theorem Alike.pure (a : α) : Exec.Alike V Φ (pure a) (pure a) := fun _ _ _ hm => .ok hm (.refl _ _)

theorem alike_exhausted {x : Exec α} : Exec.Alike V Φ exhausted x := fun _ _ _ _ => .exhausted

theorem alike_fail {line line' : Nat} (hl : V.lines line line') (fault : ScriptFault) :
    Exec.Alike V Φ (fail (α := α) line fault) (fail line' fault) :=
  fun _ _ _ hm => .halted (.script fault hl) hm.sink

theorem alike_orFail {line line' : Nat} (hl : V.lines line line') (result : Except ScriptFault α) :
    Exec.Alike V Φ (orFail line result) (orFail line' result) := by
  cases result with
  | ok a => exact .pure a
  | error fault => exact alike_fail hl fault

theorem alike_read {q : Heap → α} (hq : ∀ {ρ : Renamings} {h h' : Heap}, h.Alike V ρ h' → q h' = q h) :
    Exec.Alike V Φ (read q) (read q) := by
  intro ρ m m' hm
  unfold read
  rw [hq hm.heap]
  exact .ok hm (.refl _ _)

/-- A change of the heaps that leaves the scopes alone. -/
theorem alike_change {f : Heap → Heap} (hscopes : ∀ h, (f h).scopes = h.scopes)
    (hf : ∀ {ρ : Renamings} {h h' : Heap}, h.Alike V ρ h' → (f h).Alike V ρ (f h')) :
    Exec.Alike V Φ (change f) (change f) := by
  intro ρ m m' hm
  have hmoved : Moved ρ ρ m.heap (f m.heap) := .of_scopes_eq (hscopes m.heap)
  exact .ok (hm.withHeap (hf hm.heap) hmoved) hmoved

theorem alike_define {name name' : String} (hname : name' = NameMap.innermost Φ name) (value : Value) :
    Exec.Alike V Φ (define name value) (define name' value) := by
  intro ρ m m' hm
  have hmoved := Moved.define ρ m.heap m.current name value
  have hright : m'.heap.define m'.current name' value = m'.heap.define m.current (ρ m.current name) value := by
    rw [hm.current, hname, hm.innermost]
  unfold define
  simp only [hright]
  exact .ok (hm.withHeap (hm.heap.define m.current name value) hmoved) hmoved

/-- Reading a name in the scope at a distance. -/
theorem alike_readAt (distance : Nat) (name : String) {ρ : Renamings} {m m' : Machine}
    (hm : m.Alike V ρ Φ m') : Corresponds V ρ Φ m.heap (readAt m.current distance name m)
      (readAt m'.current distance (Φ.getD distance .keep name) m') := by
  have hscopes := hm.heap.scopes
  unfold readAt Heap.readAt
  rw [hm.current, hscopes.ancestor?]
  cases howner : m.heap.ancestor? m.current distance with
  | none => exact .halted (.fault .missingScope) hm.sink
  | some owner =>
      have hmark := hm.marked.ancestor hscopes.root hscopes.global howner
      rw [← hmark]
      simp only [hscopes.get?]
      cases (m.heap.scope owner).names.get? name with
      | some value => exact .ok hm (.refl _ _)
      | none => exact .halted (.fault (.missingName name distance (hscopes.maps owner))) hm.sink

/-- Reading `this` in a scope: it is never renamed. -/
theorem alike_readThis {ρ : Renamings} {m m' : Machine} (hm : m.Alike V ρ Φ m') {scope : ScopeId} :
    Corresponds V ρ Φ m.heap (readAt scope 0 thisName m) (readAt scope 0 thisName m') := by
  have hget := hm.heap.scopes.get? scope thisName
  rw [(ρ scope).this] at hget
  unfold readAt Heap.readAt Heap.ancestor?
  simp only [hget]
  cases (m.heap.scope scope).names.get? thisName with
  | some value => exact .ok hm (.refl _ _)
  | none => exact .halted (.fault (.missingName thisName 0 V.keep)) hm.sink

/-- What the tables of corresponding machines say about a reference. -/
theorem distance?_alike {ρ : Renamings} {m m' : Machine} (hm : m.Alike V ρ Φ m') {id : NodeId}
    {name name' : Ident} (hid : V.Refers Φ id name name') :
    m'.table.distance? id = m.table.distance? id ∧
      name'.name = NameMap.ofDistance Φ (m.table.distance? id) name.name := by
  rw [hm.table, hm.table']
  exact ⟨hid.distance, hid.spelling⟩

theorem alike_lookUp {id : NodeId} {name name' : Ident} (hid : V.Refers Φ id name name') :
    Exec.Alike V Φ (lookUp id name) (lookUp id name') := by
  intro ρ m m' hm
  obtain ⟨hdistance, hspelling⟩ := distance?_alike hm hid
  unfold lookUp
  rw [hdistance, hspelling]
  cases m.table.distance? id with
  | some distance => exact alike_readAt distance name.name hm
  | none =>
      simp only [NameMap.ofDistance, NameMap.keep_apply, hm.heap.scopes.search?_global]
      cases m.heap.search? globalScope name.name with
      | some value => exact .ok hm (.refl _ _)
      | none => exact .halted (.script _ hid.line) hm.sink

theorem alike_assign {id : NodeId} {name name' : Ident} (hid : V.Refers Φ id name name') (value : Value) :
    Exec.Alike V Φ (assign id name value) (assign id name' value) := by
  intro ρ m m' hm
  have hscopes := hm.heap.scopes
  obtain ⟨hdistance, hspelling⟩ := distance?_alike hm hid
  unfold assign
  rw [hdistance]
  cases hd : m.table.distance? id with
  | some distance =>
      rw [hd] at hspelling
      have hancestor : m'.heap.ancestor? m'.current distance = m.heap.ancestor? m.current distance := by
        rw [hm.current, hscopes.ancestor?]
      simp only [hspelling, hancestor]
      cases howner : m.heap.ancestor? m.current distance with
      | none => exact .halted (.fault .missingScope) hm.sink
      | some owner =>
          have hmark : ρ owner = NameMap.ofDistance Φ (some distance) :=
            hm.marked.ancestor hscopes.root hscopes.global howner
          have hmoved := Moved.define ρ m.heap owner name.name value
          rw [← hmark]
          exact .ok (hm.withHeap (hm.heap.define owner name.name value) hmoved) hmoved
  | none =>
      rw [hd] at hspelling
      have hname : name'.name = name.name := hspelling
      unfold assignFrom
      simp only [hname, hscopes.owner?_global]
      cases howner : m.heap.owner? globalScope name.name with
      | none => exact .halted (.script _ hid.line) hm.sink
      | some owner =>
          obtain ⟨rfl, -⟩ := Heap.owner?_of_root hscopes.root howner
          have hmoved := Moved.define ρ m.heap globalScope name.name value
          have hheap := hm.heap.define globalScope name.name value
          rw [hscopes.global] at hheap
          exact .ok (hm.withHeap hheap hmoved) hmoved

theorem alike_newArray (items : List Value) : Exec.Alike V Φ (newArray items) (newArray items) := by
  intro ρ m m' hm
  have hmoved : Moved ρ ρ m.heap (m.heap.addArray items) := .of_scopes_eq rfl
  unfold newArray
  rw [hm.heap.arrays]
  exact .ok (hm.withHeap (hm.heap.addArray items) hmoved) hmoved

theorem alike_newObject (c : ClassId) : Exec.Alike V Φ (newObject c) (newObject c) := by
  intro ρ m m' hm
  have hmoved : Moved ρ ρ m.heap (m.heap.addObject ⟨c, []⟩) := .of_scopes_eq rfl
  unfold newObject
  rw [hm.heap.objects]
  exact .ok (hm.withHeap (hm.heap.addObject ⟨c, []⟩) hmoved) hmoved

theorem alike_newFunction {ρ : Renamings} {m m' : Machine} (hm : m.Alike V ρ Φ m') {f f' : Function}
    (hf : f.Alike V ρ m.heap [] f') : Corresponds V ρ Φ m.heap (newFunction f m) (newFunction f' m') := by
  have hmoved : Moved ρ ρ m.heap (m.heap.addFunction f) := .of_scopes_eq rfl
  unfold newFunction
  rw [hm.heap.functionCount]
  exact .ok (hm.withHeap (hm.heap.addFunction hf) hmoved) hmoved

theorem alike_write (text : String) : Exec.Alike V Φ (write text) (write text) := by
  intro ρ m m' hm
  have hsink := hm.sink.take text.toUTF8
  unfold write
  simp only [hm.sink.hasRoom]
  cases m.sink.hasRoom text.toUTF8.size with
  | true =>
      exact .ok ⟨hm.heap, hm.current, hm.marked, hm.table, hm.table', hsink, hm.clock, hm.ticks⟩ (.refl _ _)
  | false => exact .halted (.sink .full) hsink

theorem alike_callNative (id : NativeId) (args : List Value) {line line' : Nat} (hl : V.lines line line') :
    Exec.Alike V Φ (callNative id args line) (callNative id args line') := by
  intro ρ m m' hm
  unfold callNative
  simp only [hm.heap.looksLike.native, hm.clock, hm.ticks]
  cases (m.heap.native id).run (m.clock m.ticks) args with
  | ok value =>
      exact .ok ⟨hm.heap, hm.current, hm.marked, hm.table, hm.table', hm.sink, rfl, rfl⟩ (.refl _ _)
  | error text => exact .halted (.script _ hl) hm.sink

/-- Running in another scope. -/
theorem alike_inScope {ρ : Renamings} {m m' : Machine} (hm : m.Alike V ρ Φ m') {scope : ScopeId}
    {Ψ : List NameMap} (hscope : Marked ρ m.heap scope Ψ) {x x' : Exec α} (hx : Exec.Alike V Ψ x x') :
    Corresponds V ρ Φ m.heap (inScope scope x m) (inScope scope x' m') := by
  have henter : Machine.Alike V ρ Ψ { m with current := scope } { m' with current := scope } :=
    ⟨hm.heap, rfl, hscope, hm.table, hm.table', hm.sink, hm.clock, hm.ticks⟩
  have hr := hx _ _ _ henter
  unfold inScope
  simp only
  generalize x { m with current := scope } = r at hr ⊢
  generalize x' { m' with current := scope } = r' at hr ⊢
  cases hr with
  | ok hm₁ hmoved =>
      refine .ok ?_ hmoved
      exact ⟨hm₁.heap, hm.current, hm.marked.move hmoved, hm₁.table, hm₁.table', hm₁.sink, hm₁.clock, hm₁.ticks⟩
  | halted hhalt hsink => exact .halted hhalt hsink
  | exhausted => exact .exhausted

/-- Allocating a scope inside another, under a renaming of its own. -/
theorem alike_newScope {ρ : Renamings} {m m' : Machine} (hm : m.Alike V ρ Φ m') {i : ScopeId}
    {Ψ : List NameMap} (hi : Marked ρ m.heap i Ψ) (names : Bindings) {σ : NameMap} (hσ : V.maps σ)
    {k k' : ScopeId → Exec α}
    (hk : ∀ {ρ₁ : Renamings} {m₁ m₁' : Machine} (scope : ScopeId), m₁.Alike V ρ₁ Φ m₁' →
      Marked ρ₁ m₁.heap scope (σ :: Ψ) →
      Corresponds V ρ₁ Φ m₁.heap (k scope m₁) (k' scope m₁')) :
    Corresponds V ρ Φ m.heap ((newScope i names >>= k) m) ((newScope i (σ.onKeys names) >>= k') m') := by
  have hmoved := Moved.addScope ρ m.heap σ ⟨some i, names⟩
  have hm₁ := hm.withHeap (hm.heap.addScope i names hσ) hmoved
  have hright : (newScope i (σ.onKeys names) >>= k') m' = k' m.heap.scopes.size
      { m' with heap := m'.heap.addScope ⟨some i, σ.onKeys names⟩ } := by
    rw [← hm.heap.scopes.size]
    rfl
  rw [hright]
  exact (hk m.heap.scopes.size hm₁ (hi.push σ names)).from hmoved

/-- Running in a new scope inside the current one. -/
theorem alike_block {σ : NameMap} (hσ : V.maps σ) {x x' : Exec α} (hx : Exec.Alike V (σ :: Φ) x x') :
    Exec.Alike V Φ (currentScope >>= fun current => newScope current [] >>= fun scope => inScope scope x)
      (currentScope >>= fun current => newScope current [] >>= fun scope => inScope scope x') := by
  intro ρ m m' hm
  have hcurrent : ∀ (k : ScopeId → Exec α) (m : Machine), (currentScope >>= k) m = k m.current m :=
    fun _ _ => rfl
  rw [hcurrent, hcurrent, hm.current]
  exact alike_newScope hm hm.marked [] hσ fun scope hm₁ hscope => alike_inScope hm₁ hscope hx

/-- Binding a method to an object. -/
theorem alike_bindMethod {ρ : Renamings} {m m' : Machine} (hm : m.Alike V ρ Φ m') {f f' : Function}
    (hf : f.Alike V ρ m.heap [.keep] f') (object : ObjectId) {k k' : Function → Exec α}
    (hk : ∀ {ρ₁ : Renamings} {m₁ m₁' : Machine} {g g' : Function}, m₁.Alike V ρ₁ Φ m₁' →
      g.Alike V ρ₁ m₁.heap [] g' → Corresponds V ρ₁ Φ m₁.heap (k g m₁) (k' g' m₁')) :
    Corresponds V ρ Φ m.heap ((bindMethod f object >>= k) m) ((bindMethod f' object >>= k') m') := by
  obtain ⟨Ψ, hΨ, hdecl⟩ := hf.decl
  have hbind : ∀ (f : Function) (k : Function → Exec α) (m : Machine), (bindMethod f object >>= k) m =
      (newScope f.closure [(thisName, .object object)] >>= fun scope => k { f with closure := scope }) m :=
    fun _ _ _ => rfl
  rw [hbind, hbind, hf.closure]
  refine alike_newScope hm hΨ [(thisName, .object object)] V.keep fun scope hm₁ hscope => ?_
  exact hk hm₁ ⟨rfl, hf.isInitializer, _, hscope, hdecl⟩

/-- Going on with what is read from the heaps. -/
theorem corresponds_read {β : Type} {ρ : Renamings} {m m' : Machine} {q : Heap → β} {k k' : β → Exec α}
    (h : Corresponds V ρ Φ m.heap (k (q m.heap) m) (k' (q m'.heap) m')) :
    Corresponds V ρ Φ m.heap ((read q >>= k) m) ((read q >>= k') m') := h

theorem alike_property (object : Value) {name : String} {line line' : Nat} (hl : V.lines line line') :
    Exec.Alike V Φ (property object ⟨name, line⟩) (property object ⟨name, line'⟩) := by
  unfold property
  cases object with
  | object id =>
      refine (alike_read fun hh => ?_).bind fun field => ?_
      · rw [hh.looksLike.object]
      · cases field with
        | some value => exact .pure value
        | none =>
            intro ρ m m' hm
            have hmethod := (hm.heap.classes (m.heap.object id).cls).method name
            refine corresponds_read ?_
            simp only [hm.heap.looksLike.object]
            generalize (m.heap.cls (m.heap.object id).cls).method? name = f? at hmethod ⊢
            generalize (m'.heap.cls (m.heap.object id).cls).method? name = f'? at hmethod ⊢
            cases hmethod with
            | none => exact alike_fail hl _ _ _ _ hm
            | some hf => exact alike_bindMethod hm hf id fun hm₁ hg => alike_newFunction hm₁ hg
  | null | bool | number | string | array | function | native | classRef => exact alike_fail hl _

theorem alike_declareFunction {d d' : FunctionDecl} (hname : NameMap.innermost Φ d.name.name = d.name.name)
    (hd : d.Alike V Φ d') : Exec.Alike V Φ (declareFunction d) (declareFunction d') := by
  intro ρ m m' hm
  have hf : Function.Alike V ρ m.heap [] ⟨d, m.current, false⟩ ⟨d', m'.current, false⟩ :=
    ⟨hm.current, rfl, Φ, hm.marked, hd⟩
  have hdefine : d'.name.name = NameMap.innermost Φ d.name.name := by rw [hd.name, hname]
  exact (alike_newFunction hm hf).bind fun value hm₁ _ => alike_define hdefine value _ _ _ hm₁

/-- What a class declaration does: the search for the name stops at the current scope, where it was just bound. -/
theorem declareClass_eq {m : Machine} (hlt : m.current < m.heap.scopes.size) (name : String) (line : Nat)
    (ds : List FunctionDecl) : declareClass ⟨name, line⟩ ds m = .ok () { m with
      heap := ((m.heap.define m.current name .null).addClass ⟨name, methodsOf m.current ds⟩).define
        m.current name (.classRef m.heap.classes.size) } := by
  have hbinds : (((m.heap.define m.current name .null).addClass
      ⟨name, methodsOf m.current ds⟩).scope m.current).names.binds name = true := by
    show ((m.heap.define m.current name .null).scope m.current).names.binds name = true
    rw [Heap.binds_define]
    simp [hlt]
  have howner := Heap.owner?_of_binds hbinds
  unfold declareClass
  simp only [Bind.bind, EStateM.bind, define, currentScope, newClass, assignFrom, howner]
  rfl

theorem alike_declareClass {name : String} {line line' : Nat} {ds ds' : List FunctionDecl}
    (hname : NameMap.innermost Φ name = name) (hds : FunctionDecl.AlikeAll V (.keep :: Φ) ds ds') :
    Exec.Alike V Φ (declareClass ⟨name, line⟩ ds) (declareClass ⟨name, line'⟩ ds') := by
  intro ρ m m' hm
  have hlt' : m'.current < m'.heap.scopes.size := by
    rw [hm.current, hm.heap.scopes.size]
    exact hm.current_lt
  have hfixed : ρ m.current name = name := by rw [hm.innermost, hname]
  rw [declareClass_eq hm.current_lt, declareClass_eq hlt', hm.heap.classCount]
  generalize hi : m.current = i at hfixed
  generalize Value.classRef m.heap.classes.size = value
  -- The name is bound, the class is made, and the name is assigned.
  have hbound := hm.heap.define i name .null
  have hmoved₁ := Moved.define ρ m.heap i name .null
  have hmarked : Marked ρ (m.heap.define i name .null) i Φ := hi ▸ hm.marked.move hmoved₁
  have hcls : Class.Alike V ρ (m.heap.define i name .null) ⟨name, methodsOf i ds⟩ ⟨name, methodsOf i ds'⟩ :=
    ⟨rfl, fun key => methodsOf_alike hmarked key hds⟩
  have hmade := hbound.addClass hcls
  have hmoved₂ : Moved ρ ρ (m.heap.define i name .null)
      ((m.heap.define i name .null).addClass ⟨name, methodsOf i ds⟩) := .of_scopes_eq rfl
  have hassigned := hmade.define i name value
  have hmoved := (hmoved₁.trans hmoved₂).trans (Moved.define ρ _ i name value)
  rw [hfixed] at hassigned
  have hm₁ := hm.withHeap hassigned hmoved
  have hi' : m'.current = i := hm.current.trans hi
  rw [hi, hi'] at hm₁
  rw [hi']
  exact .ok hm₁ hmoved

end Actions

end Exec

/-! ## Tasks -/

open Exec

/-- All tasks of programs that are alike.  The second run may have more steps. -/
structure StepsAlike (V : Variation) (steps : Nat) : Prop where
  eval : ∀ {Φ : List NameMap} {e e' : Expr} (extra : Nat), e.Alike V Φ e' →
    Exec.Alike V Φ (evaluate steps e) (evaluate (extra + steps) e')
  evalAll : ∀ {Φ : List NameMap} {es es' : List Expr} (extra : Nat), Expr.AlikeAll V Φ es es' →
    Exec.Alike V Φ (evaluateAll steps es) (evaluateAll (extra + steps) es')
  call : ∀ {Φ : List NameMap} {line line' : Nat} (extra : Nat) (callee : Value) (args : List Value),
    V.lines line line' → Exec.Alike V Φ (call steps callee args line) (call (extra + steps) callee args line')
  callWith : ∀ {Φ : List NameMap} {line line' : Nat} (extra : Nat) (callee : Value) (args : List Value),
    V.lines line line' →
    Exec.Alike V Φ (callWith steps callee args line) (callWith (extra + steps) callee args line')
  invoke : ∀ {Φ : List NameMap} {ρ : Renamings} {m m' : Machine} {f f' : Function} (extra : Nat)
    (args : List Value), m.Alike V ρ Φ m' → f.Alike V ρ m.heap [] f' →
    Corresponds V ρ Φ m.heap (invoke steps f args m) (invoke (extra + steps) f' args m')
  exec : ∀ {Φ : List NameMap} {s s' : Stmt} (extra : Nat), s.Alike V Φ s' →
    Exec.Alike V Φ (execute steps s) (execute (extra + steps) s')
  execAll : ∀ {Φ : List NameMap} {ss ss' : List Stmt} (extra : Nat), Stmt.AlikeAll V Φ ss ss' →
    Exec.Alike V Φ (executeAll steps ss) (executeAll (extra + steps) ss')
  loop : ∀ {Φ : List NameMap} {test test' : Expr} {body body' : Stmt} (extra : Nat),
    test.Alike V Φ test' → body.Alike V Φ body' →
    Exec.Alike V Φ (loop steps test body) (loop (extra + steps) test' body')

section Succ

variable {V : Variation} {Φ : List NameMap} {steps : Nat} (ih : StepsAlike V steps) (extra : Nat)
include ih

theorem evaluate_succ_alike {e e' : Expr} (he : e.Alike V Φ e') :
    Exec.Alike V Φ (evaluate (steps + 1) e) (evaluate (extra + steps + 1) e') := by
  unfold evaluate
  cases he with
  | lit value => exact .pure _
  | group ha => exact ih.eval extra ha
  | unary hop ha =>
      refine (ih.eval extra ha).bind fun a => ?_
      unfold applyUnary
      rw [hop.kind, hop.lexeme]
      exact alike_orFail hop.line _
  | binary hop ha hb =>
      refine (ih.eval extra ha).bind fun a => (ih.eval extra hb).bind fun b => ?_
      rw [hop.kind, hop.lexeme]
      exact (alike_read fun hh => hh.looksLike.applyBinary _ _ _ _).bind fun result => alike_orFail hop.line result
  | logical hop ha hb =>
      refine (ih.eval extra ha).bind fun a => (ih.eval extra hb).bind fun b => ?_
      unfold applyLogical
      rw [hop.kind, hop.lexeme]
      exact alike_orFail hop.line _
  | ternary ha hb hc =>
      refine (ih.eval extra ha).bind fun a => ?_
      split
      · exact ih.eval extra hb
      · exact ih.eval extra hc
  | var hid => exact alike_lookUp hid
  | assign hid ha =>
      exact (ih.eval extra ha).bind fun a => (alike_assign hid a).bind fun _ => .pure a
  | update hid hop ha =>
      refine (ih.eval extra ha).bind fun a => (alike_lookUp hid).bind fun old => ?_
      rw [hop.kind, hop.lexeme]
      refine (alike_read fun hh => hh.looksLike.applyBinary _ _ _ _).bind fun result => ?_
      exact (alike_orFail hop.line result).bind fun new => (alike_assign hid new).bind fun _ => .pure _
  | this hid => exact alike_lookUp hid
  | array hes => exact (ih.evalAll extra hes).bind fun values => alike_newArray values
  | index hl ha hb =>
      refine (ih.eval extra hb).bind fun b => (ih.eval extra ha).bind fun a => ?_
      exact (alike_read fun hh => hh.looksLike.applyIndex _ _).bind fun result => alike_orFail hl result
  | call hl ha hes =>
      exact (ih.eval extra ha).bind fun callee => (ih.evalAll extra hes).bind fun args =>
        ih.call extra callee args hl
  | get hl ha => exact (ih.eval extra ha).bind fun a => alike_property a hl
  | @set _ _ _ _ name _ _ hl ha hb =>
      refine (ih.eval extra ha).bind fun a => ?_
      cases a with
      | object i =>
          refine (ih.eval extra hb).bind fun b => ?_
          refine (alike_change (f := fun h => h.setField i name b) (fun _ => rfl) fun hh => ?_).bind
            fun _ => .pure b
          exact hh.setField i name b
      | null | bool | number | string | array | function | native | classRef => exact alike_fail hl _

theorem evaluateAll_succ_alike {es es' : List Expr} (hes : Expr.AlikeAll V Φ es es') :
    Exec.Alike V Φ (evaluateAll (steps + 1) es) (evaluateAll (extra + steps + 1) es') := by
  cases hes with
  | nil => exact .pure _
  | cons he hes =>
      unfold evaluateAll
      exact (ih.eval extra he).bind fun a => (ih.evalAll extra hes).bind fun values => .pure _

theorem call_succ_alike (callee : Value) (args : List Value) {line line' : Nat} (hl : V.lines line line') :
    Exec.Alike V Φ (call (steps + 1) callee args line) (call (extra + steps + 1) callee args line') := by
  unfold call
  refine (alike_read fun hh => hh.looksLike.arity? callee).bind fun arity => ?_
  cases arity with
  | none => exact alike_fail hl _
  | some arity =>
      dsimp only
      split
      · exact alike_fail hl _
      · exact ih.callWith extra callee args hl

theorem callWith_succ_alike (callee : Value) (args : List Value) {line line' : Nat}
    (hl : V.lines line line') :
    Exec.Alike V Φ (callWith (steps + 1) callee args line)
      (callWith (extra + steps + 1) callee args line') := by
  unfold callWith
  cases callee with
  | native i => exact alike_callNative i args hl
  | function i => exact fun ρ m m' hm => ih.invoke extra args hm (hm.heap.functions i)
  | classRef i =>
      refine (alike_newObject i).bind fun object ρ m m' hm => ?_
      have hmethod := (hm.heap.classes i).method constructorName
      refine corresponds_read ?_
      generalize (m.heap.cls i).method? constructorName = f? at hmethod ⊢
      generalize (m'.heap.cls i).method? constructorName = f'? at hmethod ⊢
      cases hmethod with
      | none => exact Exec.Alike.pure _ _ _ _ hm
      | some hf =>
          refine alike_bindMethod hm hf object fun hm₁ hg => ?_
          exact (ih.invoke extra args hm₁ hg).bind fun _ hm₂ _ => Exec.Alike.pure _ _ _ _ hm₂
  | null | bool | number | string | array | object => exact alike_fail hl _

theorem invoke_succ_alike {ρ : Renamings} {m m' : Machine} {f f' : Function} (args : List Value)
    (hm : m.Alike V ρ Φ m') (hf : f.Alike V ρ m.heap [] f') :
    Corresponds V ρ Φ m.heap (invoke (steps + 1) f args m) (invoke (extra + steps + 1) f' args m') := by
  obtain ⟨⟨name, params, body⟩, closure, initializer⟩ := f
  obtain ⟨⟨name', params', body'⟩, closure', initializer'⟩ := f'
  obtain ⟨rfl, rfl, Ψ, hΨ, hdecl⟩ := hf
  cases hdecl with
  | @mk _ σ _ _ _ _ _ _ _ hσ hparams hbody =>
      unfold invoke
      simp only [FunctionDecl.params, FunctionDecl.body]
      rw [Bindings.ofParameters_alike args hparams]
      refine alike_newScope hm hΨ _ hσ fun scope hm₁ hscope => ?_
      refine (alike_inScope hm₁ hscope (ih.execAll extra hbody)).bind fun flow hm₂ _ => ?_
      cases initializer' with
      | true => exact alike_readThis hm₂
      | false =>
          cases flow with
          | returned value => exact Exec.Alike.pure _ _ _ _ hm₂
          | normal => exact Exec.Alike.pure _ _ _ _ hm₂

theorem execute_succ_alike {s s' : Stmt} (hs : s.Alike V Φ s') :
    Exec.Alike V Φ (execute (steps + 1) s) (execute (extra + steps + 1) s') := by
  unfold execute
  cases hs with
  | expr he => exact (ih.eval extra he).bind fun _ => .pure _
  | print he =>
      refine (ih.eval extra he).bind fun a => (alike_read fun hh => hh.looksLike.text a).bind fun text => ?_
      exact (alike_write _).bind fun _ => .pure _
  | var hname => exact (alike_define hname .null).bind fun _ => .pure _
  | init hname he =>
      exact (ih.eval extra he).bind fun a => (alike_define hname a).bind fun _ => .pure _
  | block hσ hbody => exact alike_block hσ (ih.execAll extra hbody)
  | ifThen he ha =>
      refine (ih.eval extra he).bind fun test => ?_
      dsimp only
      split
      · exact ih.exec extra ha
      · exact .pure _
  | ifElse he ha hb =>
      refine (ih.eval extra he).bind fun test => ?_
      dsimp only
      split
      · exact ih.exec extra ha
      · exact ih.exec extra hb
  | whileLoop he ha => exact ih.loop extra he ha
  | function hname hd => exact (alike_declareFunction hname hd).bind fun _ => .pure _
  | classDecl hname _ hds => exact (alike_declareClass hname hds).bind fun _ => .pure _
  | ret => exact .pure _
  | value he => exact (ih.eval extra he).bind fun a => .pure _

theorem executeAll_succ_alike {ss ss' : List Stmt} (hss : Stmt.AlikeAll V Φ ss ss') :
    Exec.Alike V Φ (executeAll (steps + 1) ss) (executeAll (extra + steps + 1) ss') := by
  cases hss with
  | nil => exact .pure _
  | cons hs hss =>
      unfold executeAll
      refine (ih.exec extra hs).bind fun flow => ?_
      cases flow with
      | normal => exact ih.execAll extra hss
      | returned value => exact .pure _

theorem loop_succ_alike {test test' : Expr} {body body' : Stmt} (htest : test.Alike V Φ test')
    (hbody : body.Alike V Φ body') :
    Exec.Alike V Φ (loop (steps + 1) test body) (loop (extra + steps + 1) test' body') := by
  unfold loop
  refine (ih.eval extra htest).bind fun holds => ?_
  split
  · refine (ih.exec extra hbody).bind fun flow => ?_
    cases flow with
    | normal => exact ih.loop extra htest hbody
    | returned value => exact .pure _
  · exact .pure _

end Succ

/-- **Programs that are alike do the same.** -/
theorem stepsAlike (V : Variation) : ∀ steps, StepsAlike V steps
  | 0 => by
    constructor
    case invoke => exact fun _ _ _ _ => .exhausted
    all_goals intros; exact alike_exhausted
  | steps + 1 =>
    let ih := stepsAlike V steps
    ⟨fun extra => evaluate_succ_alike ih extra, fun extra => evaluateAll_succ_alike ih extra,
      fun extra callee args => call_succ_alike ih extra callee args,
      fun extra callee args => callWith_succ_alike ih extra callee args,
      fun extra => invoke_succ_alike ih extra, fun extra => execute_succ_alike ih extra,
      fun extra => executeAll_succ_alike ih extra, fun extra => loop_succ_alike ih extra⟩

theorem executeTop_alike {V : Variation} {Φ : List NameMap} : ∀ (steps extra : Nat) {p p' : Program},
    Stmt.AlikeAll V Φ p p' → Exec.Alike V Φ (executeTop steps p) (executeTop (extra + steps) p')
  | 0, _, _, _, _ => alike_exhausted
  | _ + 1, _, _, _, .nil => .pure ()
  | steps + 1, extra, _, _, .cons hs hss =>
      ((stepsAlike V steps).exec extra hs).bind fun _ => executeTop_alike steps extra hss

/-! ## Programs -/

/-- Corresponding ends of two runs at top level. -/
inductive EndsAlike (V : Variation) : EStateM.Result Halt Machine Unit → EStateM.Result Halt Machine Unit →
    Prop where
  | ok {m m' : Machine} : m.sink.Alike m'.sink → EndsAlike V (.ok () m) (.ok () m')
  | halted {halt halt' : Halt} {m m' : Machine} : halt.Alike V halt' → m.sink.Alike m'.sink →
      EndsAlike V (.error halt m) (.error halt' m')
  | exhausted {m : Machine} {r' : EStateM.Result Halt Machine Unit} : EndsAlike V (.error .exhausted m) r'

/-- Flushing at the end of a run; a sink that cannot flush fails in both runs. -/
theorem finish_alike {V : Variation} {m m' : Machine} (hsink : m.sink.Alike m'.sink) :
    EndsAlike V (m.finish (.ok ())) (m'.finish (.ok ())) ∧
      ∀ e e', Halt.Alike V (.error e) (.error e') → EndsAlike V (m.finish (.error e)) (m'.finish (.error e')) := by
  have hflush : m.sink.flush.Alike m'.sink.flush := ⟨hsink.written, hsink.limit, hsink.flushFails⟩
  have hfails : m'.sink.flush.flushFails = m.sink.flush.flushFails := hsink.flushFails
  unfold Machine.finish
  simp only [hfails]
  cases m.sink.flush.flushFails with
  | true => exact ⟨.halted (.sink .flushFailed) hflush, fun _ _ _ => .halted (.sink .flushFailed) hflush⟩
  | false => exact ⟨.ok hflush, fun _ _ he => .halted he hflush⟩

/-- Programs end alike if their statements do. -/
theorem Corresponds.interpret {V : Variation} {ρ : Renamings} {Φ : List NameMap} {h : Heap} {m m' : Machine}
    {steps steps' : Nat} {p p' : Program}
    (hr : Corresponds V ρ Φ h (executeTop steps p m) (executeTop steps' p' m')) :
    EndsAlike V (interpret steps p m) (interpret steps' p' m') := by
  unfold Scriptlet.interpret
  generalize executeTop steps p m = r at hr ⊢
  generalize executeTop steps' p' m' = r' at hr ⊢
  cases hr with
  | ok hm _ => exact (finish_alike hm.sink).1
  | halted hhalt hsink =>
      cases hhalt with
      | script fault hl => exact (finish_alike hsink).2 _ _ (.script fault hl)
      | sink e => exact (finish_alike hsink).2 _ _ (.sink e)
      | fault hf => exact .halted (.fault hf) hsink
  | exhausted => exact .exhausted

/-- **Programs that are alike end alike.** -/
theorem interpret_alike {V : Variation} {ρ : Renamings} {m m' : Machine} {p p' : Program} (steps extra : Nat)
    (hm : m.Alike V ρ [] m') (hp : Stmt.AlikeAll V [] p p') :
    EndsAlike V (interpret steps p m) (interpret (extra + steps) p' m') :=
  (executeTop_alike steps extra hp ρ m m' hm).interpret

end Scriptlet
