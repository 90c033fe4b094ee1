import Scriptlet.Proofs.Run.Regime
import Scriptlet.Proofs.Scoping.Covers

/-!
# Calls are confined

A call can change only what it can get hold of: what is reachable from the called value, the arguments and the global
scope, and what is allocated while it runs.  Which cells are reachable changes as values are stored, so what is
followed through the run is a set of cells that is closed under references.

* `Cell` — what has an identity in the heap; `Heap.Refers` — a cell refers to another one.
* `Heap.Reaches h values c` — the cell is reachable from the values or from the global scope.
* `Heap.Within h₀ values h c` — the cell was reachable in `h₀`, or was allocated between `h₀` and `h`.
* `Regime.confined h₀ values` — only such cells are used, and scopes and objects that were out of reach stay as they
  were.

Principal results: `Regime.confined_lawful` — evaluation respects this regime; `call_keeps_confined` — a call leaves
scopes and objects out of its reach as they were.
-/

set_option autoImplicit false

namespace Scriptlet

/-- What has an identity in the heap. -/
inductive Cell where
  | scope (i : ScopeId)
  | array (i : ArrayId)
  | function (i : FunctionId)
  | cls (i : ClassId)
  | object (i : ObjectId)
  deriving DecidableEq, Repr

/-- The cell that a value refers to. -/
def Value.cell? : Value → Option Cell
  | .array i => some (.array i)
  | .function i => some (.function i)
  | .classRef i => some (.cls i)
  | .object i => some (.object i)
  | _ => none

/-- What is found under a name is an entry. -/
theorem mem_of_lookup {α : Type} {entries : List (String × α)} {name : String} {a : α}
    (h : entries.lookup name = some a) : (name, a) ∈ entries := by
  obtain ⟨before, after, happ, -⟩ := List.lookup_eq_some_iff.mp h
  rw [happ]
  exact List.mem_append_right _ List.mem_cons_self

theorem Value.IsPlain.cell? {v : Value} (h : v.IsPlain) : v.cell? = none := by
  cases v <;> first | rfl | exact h.elim

namespace Heap

/-- A cell refers to another one. -/
inductive Refers (h : Heap) : Cell → Cell → Prop where
  | enclosing {i j : ScopeId} : (h.scope i).enclosing = some j → h.Refers (.scope i) (.scope j)
  | bound {i : ScopeId} {entry : String × Value} {c : Cell} : entry ∈ (h.scope i).names →
      entry.2.cell? = some c → h.Refers (.scope i) c
  | closure {i : FunctionId} : h.Refers (.function i) (.scope (h.function i).closure)
  | method {i : ClassId} {entry : String × Function} : entry ∈ (h.cls i).methods →
      h.Refers (.cls i) (.scope entry.2.closure)
  | element {i : ArrayId} {v : Value} {c : Cell} : v ∈ h.array i → v.cell? = some c → h.Refers (.array i) c
  | cls {i : ObjectId} : h.Refers (.object i) (.cls (h.object i).cls)
  | field {i : ObjectId} {entry : String × Value} {c : Cell} : entry ∈ (h.object i).fields →
      entry.2.cell? = some c → h.Refers (.object i) c

/-- The cells that are reachable from values and from the global scope. -/
inductive Reaches (h : Heap) (values : List Value) : Cell → Prop where
  | global : h.Reaches values (.scope globalScope)
  | value {v : Value} {c : Cell} : v ∈ values → v.cell? = some c → h.Reaches values c
  | step {c c' : Cell} : h.Reaches values c → h.Refers c c' → h.Reaches values c'

/-- The cell is in the heap. -/
def Has (h : Heap) : Cell → Prop
  | .scope i => i < h.scopes.size
  | .array i => i < h.arrays.size
  | .function i => i < h.functions.size
  | .cls i => i < h.classes.size
  | .object i => i < h.objects.size

/-- The cell was reachable in an earlier heap, or is new since then. -/
def Within (h₀ : Heap) (values : List Value) (h : Heap) (c : Cell) : Prop :=
  h₀.Reaches values c ∨ (¬ h₀.Has c ∧ h.Has c)

/-- Cells within reach refer to cells within reach. -/
def Closed (h₀ : Heap) (values : List Value) (h : Heap) : Prop :=
  ∀ c c', h₀.Within values h c → h.Refers c c' → h₀.Within values h c'

section Closed

variable {h₀ h h' : Heap} {values : List Value}

theorem Within.grow {c : Cell} (hhas : ∀ c, h.Has c → h'.Has c) (hc : h₀.Within values h c) :
    h₀.Within values h' c :=
  hc.imp_right fun hnew => ⟨hnew.1, hhas c hnew.2⟩

/-- **What a change of the heap has to respect.**  A reference of the new heap is an old one of an old cell, or leads
to a cell within reach. -/
theorem Closed.grow (hclosed : h₀.Closed values h) (hhas : ∀ c, h.Has c → h'.Has c)
    (hrefers : ∀ c c', h'.Refers c c' → (h.Refers c c' ∧ (h'.Has c → h.Has c)) ∨ h₀.Within values h c') :
    h₀.Closed values h' := by
  intro c c' hc hr
  rcases hrefers c c' hr with ⟨hold, hback⟩ | hnew
  · have hc' : h₀.Within values h c := hc.imp_right fun hnew => ⟨hnew.1, hback hnew.2⟩
    exact (hclosed c c' hc' hold).grow hhas
  · exact hnew.grow hhas

theorem Closed.define (hclosed : h₀.Closed values h) {i : ScopeId} {name : String} {v : Value}
    (hv : ∀ c, v.cell? = some c → h₀.Within values h c) : h₀.Closed values (h.define i name v) := by
  have hhas : ∀ c, (h.define i name v).Has c ↔ h.Has c := by
    intro c
    cases c <;> simp [Has, Heap.define]
  refine hclosed.grow (fun c => (hhas c).mpr) fun c c' hr => ?_
  have hback := (hhas c).mp
  cases hr with
  | enclosing he =>
      rw [enclosing_define] at he
      exact .inl ⟨.enclosing he, hback⟩
  | @bound j entry _ hentry hcell =>
      rw [scope_define] at hentry
      split at hentry
      · rcases Bindings.mem_insert hentry with heq | hentry
        · exact .inr (hv c' (heq ▸ hcell))
        · exact .inl ⟨.bound hentry hcell, hback⟩
      · exact .inl ⟨.bound hentry hcell, hback⟩
  | closure => exact .inl ⟨.closure, hback⟩
  | method hentry => exact .inl ⟨.method hentry, hback⟩
  | element hmem hcell => exact .inl ⟨.element hmem hcell, hback⟩
  | cls => exact .inl ⟨.cls, hback⟩
  | field hentry hcell => exact .inl ⟨.field hentry hcell, hback⟩

theorem object_setField (h : Heap) (i : ObjectId) (name : String) (v : Value) (j : ObjectId) :
    (h.setField i name v).object j =
      if i = j ∧ j < h.objects.size then ⟨(h.object j).cls, (h.object j).fields.insert name v⟩
      else h.object j := by
  unfold object setField
  simp only [Array.getD_eq_getD_getElem?, Array.getElem?_modify]
  by_cases hj : j < h.objects.size
  · by_cases hij : i = j <;> simp [hij, hj]
  · simp [hj]

theorem Closed.setField (hclosed : h₀.Closed values h) {i : ObjectId} {name : String} {v : Value}
    (hv : ∀ c, v.cell? = some c → h₀.Within values h c) : h₀.Closed values (h.setField i name v) := by
  have hhas : ∀ c, (h.setField i name v).Has c ↔ h.Has c := by
    intro c
    cases c <;> simp [Has, Heap.setField]
  refine hclosed.grow (fun c => (hhas c).mpr) fun c c' hr => ?_
  have hback := (hhas c).mp
  cases hr with
  | enclosing he => exact .inl ⟨.enclosing he, hback⟩
  | bound hentry hcell => exact .inl ⟨.bound hentry hcell, hback⟩
  | closure => exact .inl ⟨.closure, hback⟩
  | method hentry => exact .inl ⟨.method hentry, hback⟩
  | element hmem hcell => exact .inl ⟨.element hmem hcell, hback⟩
  | @cls j =>
      have hcls : ((h.setField i name v).object j).cls = (h.object j).cls := by
        rw [object_setField]
        split <;> rfl
      rw [hcls]
      exact .inl ⟨.cls, hback⟩
  | @field j entry _ hentry hcell =>
      rw [object_setField] at hentry
      split at hentry
      · rcases Bindings.mem_insert hentry with heq | hentry
        · exact .inr (hv c' (heq ▸ hcell))
        · exact .inl ⟨.field hentry hcell, hback⟩
      · exact .inl ⟨.field hentry hcell, hback⟩

/-- A heap with one more cell: what is new about it leads to cells within reach. -/
theorem Closed.alloc (hclosed : h₀.Closed values h) {c₀ : Cell}
    (hhas : ∀ c, h'.Has c ↔ h.Has c ∨ c = c₀)
    (hrefers : ∀ c c', h'.Refers c c' → (c ≠ c₀ ∧ h.Refers c c') ∨ h₀.Within values h c') :
    h₀.Closed values h' := by
  refine hclosed.grow (fun c hc => (hhas c).mpr (.inl hc)) fun c c' hr => ?_
  rcases hrefers c c' hr with ⟨hne, hold⟩ | hnew
  · exact .inl ⟨hold, fun hc => ((hhas c).mp hc).resolve_right hne⟩
  · exact .inr hnew

theorem has_addScope (h : Heap) (s : Scope) (c : Cell) :
    (h.addScope s).Has c ↔ h.Has c ∨ c = .scope h.scopes.size := by
  cases c <;>
    simp only [Has, Heap.addScope, Array.size_push, Nat.lt_succ_iff_lt_or_eq, Cell.scope.injEq, reduceCtorEq, or_false]

theorem has_addArray (h : Heap) (items : List Value) (c : Cell) :
    (h.addArray items).Has c ↔ h.Has c ∨ c = .array h.arrays.size := by
  cases c <;>
    simp only [Has, Heap.addArray, Array.size_push, Nat.lt_succ_iff_lt_or_eq, Cell.array.injEq, reduceCtorEq, or_false]

theorem has_addFunction (h : Heap) (f : Function) (c : Cell) :
    (h.addFunction f).Has c ↔ h.Has c ∨ c = .function h.functions.size := by
  cases c <;>
    simp only [Has, Heap.addFunction, Array.size_push, Nat.lt_succ_iff_lt_or_eq, Cell.function.injEq, reduceCtorEq, or_false]

theorem has_addClass (h : Heap) (k : Class) (c : Cell) :
    (h.addClass k).Has c ↔ h.Has c ∨ c = .cls h.classes.size := by
  cases c <;>
    simp only [Has, Heap.addClass, Array.size_push, Nat.lt_succ_iff_lt_or_eq, Cell.cls.injEq, reduceCtorEq, or_false]

theorem has_addObject (h : Heap) (o : Object) (c : Cell) :
    (h.addObject o).Has c ↔ h.Has c ∨ c = .object h.objects.size := by
  cases c <;>
    simp only [Has, Heap.addObject, Array.size_push, Nat.lt_succ_iff_lt_or_eq, Cell.object.injEq, reduceCtorEq, or_false]

theorem Closed.addScope (hclosed : h₀.Closed values h) {s : Scope}
    (henclosing : ∀ i, s.enclosing = some i → h₀.Within values h (.scope i))
    (hnames : ∀ entry ∈ s.names, ∀ c, entry.2.cell? = some c → h₀.Within values h c) :
    h₀.Closed values (h.addScope s) := by
  refine hclosed.alloc (has_addScope h s) fun c c' hr => ?_
  cases hr with
  | @enclosing i j he =>
      by_cases hi : i = h.scopes.size
      · rw [scope_addScope, if_pos hi] at he
        exact .inr (henclosing j he)
      · rw [scope_addScope, if_neg hi] at he
        exact .inl ⟨fun heq => hi (Cell.scope.inj heq), .enclosing he⟩
  | @bound i entry _ hentry hcell =>
      by_cases hi : i = h.scopes.size
      · rw [scope_addScope, if_pos hi] at hentry
        exact .inr (hnames entry hentry c' hcell)
      · rw [scope_addScope, if_neg hi] at hentry
        exact .inl ⟨fun heq => hi (Cell.scope.inj heq), .bound hentry hcell⟩
  | closure => exact .inl ⟨nofun, .closure⟩
  | method hentry => exact .inl ⟨nofun, .method hentry⟩
  | element hmem hcell => exact .inl ⟨nofun, .element hmem hcell⟩
  | cls => exact .inl ⟨nofun, .cls⟩
  | field hentry hcell => exact .inl ⟨nofun, .field hentry hcell⟩

theorem array_addArray (h : Heap) (items : List Value) (i : ArrayId) :
    (h.addArray items).array i = if i = h.arrays.size then items else h.array i := by
  unfold array addArray
  rw [Array.getD_eq_getD_getElem?, Array.getD_eq_getD_getElem?, Array.getElem?_push]
  split <;> simp_all

theorem Closed.addArray (hclosed : h₀.Closed values h) {items : List Value}
    (hitems : ∀ v ∈ items, ∀ c, v.cell? = some c → h₀.Within values h c) :
    h₀.Closed values (h.addArray items) := by
  refine hclosed.alloc (has_addArray h items) fun c c' hr => ?_
  cases hr with
  | enclosing he => exact .inl ⟨nofun, .enclosing he⟩
  | bound hentry hcell => exact .inl ⟨nofun, .bound hentry hcell⟩
  | closure => exact .inl ⟨nofun, .closure⟩
  | method hentry => exact .inl ⟨nofun, .method hentry⟩
  | @element i v _ hmem hcell =>
      by_cases hi : i = h.arrays.size
      · rw [array_addArray, if_pos hi] at hmem
        exact .inr (hitems v hmem c' hcell)
      · rw [array_addArray, if_neg hi] at hmem
        exact .inl ⟨fun heq => hi (Cell.array.inj heq), .element hmem hcell⟩
  | cls => exact .inl ⟨nofun, .cls⟩
  | field hentry hcell => exact .inl ⟨nofun, .field hentry hcell⟩

theorem Closed.addFunction (hclosed : h₀.Closed values h) {f : Function}
    (hf : h₀.Within values h (.scope f.closure)) : h₀.Closed values (h.addFunction f) := by
  refine hclosed.alloc (has_addFunction h f) fun c c' hr => ?_
  cases hr with
  | enclosing he => exact .inl ⟨nofun, .enclosing he⟩
  | bound hentry hcell => exact .inl ⟨nofun, .bound hentry hcell⟩
  | @closure i =>
      rw [function_addFunction]
      by_cases hi : i = h.functions.size
      · rw [if_pos hi]
        exact .inr hf
      · rw [if_neg hi]
        exact .inl ⟨fun heq => hi (Cell.function.inj heq), .closure⟩
  | method hentry => exact .inl ⟨nofun, .method hentry⟩
  | element hmem hcell => exact .inl ⟨nofun, .element hmem hcell⟩
  | cls => exact .inl ⟨nofun, .cls⟩
  | field hentry hcell => exact .inl ⟨nofun, .field hentry hcell⟩

theorem Closed.addClass (hclosed : h₀.Closed values h) {k : Class}
    (hk : ∀ entry ∈ k.methods, h₀.Within values h (.scope entry.2.closure)) :
    h₀.Closed values (h.addClass k) := by
  refine hclosed.alloc (has_addClass h k) fun c c' hr => ?_
  cases hr with
  | enclosing he => exact .inl ⟨nofun, .enclosing he⟩
  | bound hentry hcell => exact .inl ⟨nofun, .bound hentry hcell⟩
  | closure => exact .inl ⟨nofun, .closure⟩
  | @method i entry hentry =>
      by_cases hi : i = h.classes.size
      · rw [cls_addClass, if_pos hi] at hentry
        exact .inr (hk entry hentry)
      · rw [cls_addClass, if_neg hi] at hentry
        exact .inl ⟨fun heq => hi (Cell.cls.inj heq), .method hentry⟩
  | element hmem hcell => exact .inl ⟨nofun, .element hmem hcell⟩
  | cls => exact .inl ⟨nofun, .cls⟩
  | field hentry hcell => exact .inl ⟨nofun, .field hentry hcell⟩

theorem object_addObject (h : Heap) (o : Object) (i : ObjectId) :
    (h.addObject o).object i = if i = h.objects.size then o else h.object i := by
  unfold object addObject
  rw [Array.getD_eq_getD_getElem?, Array.getD_eq_getD_getElem?, Array.getElem?_push]
  split <;> simp_all

theorem Closed.addObject (hclosed : h₀.Closed values h) {k : ClassId}
    (hk : h₀.Within values h (.cls k)) : h₀.Closed values (h.addObject ⟨k, []⟩) := by
  refine hclosed.alloc (has_addObject h ⟨k, []⟩) fun c c' hr => ?_
  cases hr with
  | enclosing he => exact .inl ⟨nofun, .enclosing he⟩
  | bound hentry hcell => exact .inl ⟨nofun, .bound hentry hcell⟩
  | closure => exact .inl ⟨nofun, .closure⟩
  | method hentry => exact .inl ⟨nofun, .method hentry⟩
  | element hmem hcell => exact .inl ⟨nofun, .element hmem hcell⟩
  | @cls i =>
      rw [object_addObject]
      by_cases hi : i = h.objects.size
      · rw [if_pos hi]
        exact .inr hk
      · rw [if_neg hi]
        exact .inl ⟨fun heq => hi (Cell.object.inj heq), .cls⟩
  | @field i entry _ hentry hcell =>
      by_cases hi : i = h.objects.size
      · rw [object_addObject, if_pos hi] at hentry
        cases hentry
      · rw [object_addObject, if_neg hi] at hentry
        exact .inl ⟨fun heq => hi (Cell.object.inj heq), .field hentry hcell⟩

end Closed

end Heap

/-! ## The regime of a call -/

/-- What holds while a call runs: cells within reach refer to cells within reach, no cell is lost, and the clock is the
only native function. -/
structure Machine.Confined (h₀ : Heap) (values : List Value) (m : Machine) : Prop where
  closed : h₀.Closed values m.heap
  grown : ∀ c, h₀.Has c → m.heap.Has c
  natives : m.heap.natives = #[.clock]

/-- What is never changed: scopes and objects out of reach. -/
structure Machine.Spares (h₀ : Heap) (values : List Value) (m m' : Machine) : Prop where
  grown : ∀ c, m.heap.Has c → m'.heap.Has c
  scope : ∀ i, h₀.Has (.scope i) → ¬ h₀.Reaches values (.scope i) → m'.heap.scope i = m.heap.scope i
  object : ∀ i, h₀.Has (.object i) → ¬ h₀.Reaches values (.object i) →
    m'.heap.object i = m.heap.object i

/-- The regime of a call: only cells within reach are used. -/
def Regime.confined (h₀ : Heap) (values : List Value) : Regime where
  inv := Machine.Confined h₀ values
  value := fun m v => ∀ c, v.cell? = some c → h₀.Within values m.heap c
  scope := fun m i => h₀.Within values m.heap (.scope i)
  step := Machine.Spares h₀ values

section Confined

variable {h₀ : Heap} {values : List Value} {m : Machine}

/-- The native function of the clock yields plain values, and no other is called. -/
theorem Machine.Confined.native (hm : m.Confined h₀ values) {id : NativeId} {now : Float}
    {args : List Value} {v : Value} (h : (m.heap.native id).run now args = .ok v) : v.IsPlain := by
  unfold Heap.native at h
  rw [hm.natives] at h
  cases id with
  | zero =>
      cases h
      trivial
  | succ id =>
      cases h
      trivial

/-- A change of the heap that touches neither scopes nor objects. -/
theorem Machine.Spares.of_eq {h : Heap} (hhas : ∀ c, m.heap.Has c → h.Has c)
    (hscopes : h.scopes = m.heap.scopes) (hobjects : h.objects = m.heap.objects) :
    m.Spares h₀ values { m with heap := h } where
  grown := hhas
  scope := by
    intro i _ _
    unfold Heap.scope
    rw [hscopes]
  object := by
    intro i _ _
    unfold Heap.object
    rw [hobjects]

theorem Machine.Spares.refl (m : Machine) : m.Spares h₀ values m :=
  ⟨fun _ hc => hc, fun _ _ _ => rfl, fun _ _ _ => rfl⟩

theorem Machine.Spares.trans {m₁ m₂ : Machine} (h : m.Spares h₀ values m₁) (h' : m₁.Spares h₀ values m₂) :
    m.Spares h₀ values m₂ where
  grown := fun c hc => h'.grown c (h.grown c hc)
  scope := fun i hi hr => (h'.scope i hi hr).trans (h.scope i hi hr)
  object := fun i hi hr => (h'.object i hi hr).trans (h.object i hi hr)

/-- A cell within reach is not one that was there and out of reach. -/
theorem Heap.Within.ne {h : Heap} {c c' : Cell} (hc : h₀.Within values h c) (hhas : h₀.Has c')
    (hout : ¬ h₀.Reaches values c') : c ≠ c' := by
  rintro rfl
  rcases hc with hreach | hnew
  · exact hout hreach
  · exact hnew.1 hhas

/-- The scope of a new name is within reach, so scopes out of reach are not changed. -/
theorem Machine.Spares.define {i : ScopeId} (name : String) (v : Value)
    (hi : h₀.Within values m.heap (.scope i)) :
    m.Spares h₀ values { m with heap := m.heap.define i name v } where
  grown := by
    intro c hc
    cases c <;> simpa [Heap.Has, Heap.define] using hc
  scope := by
    intro j hj hout
    have hne : i ≠ j := fun heq => hi.ne hj hout (congrArg Cell.scope heq)
    show (m.heap.define i name v).scope j = m.heap.scope j
    rw [Heap.scope_define, if_neg fun h => hne h.1]
  object := fun _ _ _ => rfl

theorem Machine.Spares.setField {i : ObjectId} (name : String) (v : Value)
    (hi : h₀.Within values m.heap (.object i)) :
    m.Spares h₀ values { m with heap := m.heap.setField i name v } where
  grown := by
    intro c hc
    cases c <;> simpa [Heap.Has, Heap.setField] using hc
  scope := fun _ _ _ => rfl
  object := by
    intro j hj hout
    have hne : i ≠ j := fun heq => hi.ne hj hout (congrArg Cell.object heq)
    show (m.heap.setField i name v).object j = m.heap.object j
    rw [Heap.object_setField, if_neg fun h => hne h.1]

theorem Machine.Confined.spares_addScope (hm : m.Confined h₀ values) (s : Scope) :
    m.Spares h₀ values { m with heap := m.heap.addScope s } where
  grown := fun c hc => (Heap.has_addScope m.heap s c).mpr (.inl hc)
  scope := by
    intro i hi _
    have hlt : i < m.heap.scopes.size := hm.grown (.scope i) hi
    show (m.heap.addScope s).scope i = m.heap.scope i
    rw [Heap.scope_addScope, if_neg (Nat.ne_of_lt hlt)]
  object := fun _ _ _ => rfl

theorem Machine.Confined.spares_addObject (hm : m.Confined h₀ values) (o : Object) :
    m.Spares h₀ values { m with heap := m.heap.addObject o } where
  grown := fun c hc => (Heap.has_addObject m.heap o c).mpr (.inl hc)
  scope := fun _ _ _ => rfl
  object := by
    intro i hi _
    have hlt : i < m.heap.objects.size := hm.grown (.object i) hi
    show (m.heap.addObject o).object i = m.heap.object i
    rw [Heap.object_addObject, if_neg (Nat.ne_of_lt hlt)]

/-- A new cell is within reach. -/
theorem Machine.Confined.within_new (hm : m.Confined h₀ values) {h : Heap} {c : Cell}
    (hold : ¬ m.heap.Has c) (hnew : h.Has c) : h₀.Within values h c :=
  .inr ⟨fun hc => hold (hm.grown c hc), hnew⟩

/-- The machine is still confined after a change of the heap. -/
theorem Machine.Confined.alters {h : Heap} (hm : m.Confined h₀ values) (hclosed : h₀.Closed values h)
    (hspares : m.Spares h₀ values { m with heap := h }) (hnatives : h.natives = m.heap.natives) :
    (Regime.confined h₀ values).Alters m { m with heap := h } :=
  ⟨⟨hclosed, fun c hc => hspares.grown c (hm.grown c hc), hnatives.trans hm.natives⟩, hspares⟩

/-- **The regime of a call is lawful.** -/
theorem Regime.confined_lawful (h₀ : Heap) (values : List Value) : (Regime.confined h₀ values).Lawful where
  refl := .refl
  trans := .trans
  value_step := fun hstep hv c hc => (hv c hc).grow hstep.grown
  scope_step := fun hstep hi => hi.grow hstep.grown
  plain := by
    intro m v hplain c hc
    rw [hplain.cell?] at hc
    cases hc
  global := fun _ => .inl .global
  enclosing := fun hm hi he => hm.closed _ _ hi (.enclosing he)
  bound := fun hm hi hget c hc => hm.closed _ _ hi (.bound (mem_of_lookup hget) hc)
  closure := fun hm hf => hm.closed _ _ (hf _ rfl) .closure
  method := fun hm hclass hmethod => hm.closed _ _ (hclass _ rfl) (.method (mem_of_lookup hmethod))
  element := fun hm harray hmem c hc => hm.closed _ _ (harray _ rfl) (.element hmem hc)
  cls := by
    intro m id hm hobject c hc
    cases hc
    exact hm.closed _ _ (hobject _ rfl) .cls
  field := fun hm hobject hget c hc => hm.closed _ _ (hobject _ rfl) (.field (mem_of_lookup hget) hc)
  native := by
    intro m id now args v hm hrun c hc
    rw [(hm.native hrun).cell?] at hc
    cases hc
  switch := fun _ hm => ⟨⟨hm.closed, hm.grown, hm.natives⟩, fun _ hc => hc, fun _ _ _ => rfl, fun _ _ _ => rfl⟩
  take := fun _ hm => ⟨⟨hm.closed, hm.grown, hm.natives⟩, fun _ hc => hc, fun _ _ _ => rfl, fun _ _ _ => rfl⟩
  tick := fun hm => ⟨⟨hm.closed, hm.grown, hm.natives⟩, fun _ hc => hc, fun _ _ _ => rfl, fun _ _ _ => rfl⟩
  define := fun name hm hi hv => hm.alters (hm.closed.define hv) (.define name _ hi) rfl
  setField := fun name hm hobject hv =>
    hm.alters (hm.closed.setField hv) (.setField name _ (hobject _ rfl)) rfl
  addScope := by
    intro m i names hm hi hnames
    refine ⟨hm.alters (hm.closed.addScope ?_ hnames) (hm.spares_addScope _) rfl, ?_⟩
    · intro j hj
      cases hj
      exact hi
    · exact hm.within_new (Nat.lt_irrefl _) ((Heap.has_addScope _ _ _).mpr (.inr rfl))
  addArray := by
    intro m items hm hitems
    have hhas := Heap.has_addArray m.heap items
    refine ⟨hm.alters (hm.closed.addArray hitems) (.of_eq (fun c hc => (hhas c).mpr (.inl hc)) rfl rfl) rfl, ?_⟩
    intro c hc
    cases hc
    exact hm.within_new (Nat.lt_irrefl _) ((hhas _).mpr (.inr rfl))
  addFunction := by
    intro m f hm hf
    have hhas := Heap.has_addFunction m.heap f
    refine ⟨hm.alters (hm.closed.addFunction hf) (.of_eq (fun c hc => (hhas c).mpr (.inl hc)) rfl rfl) rfl, ?_⟩
    intro c hc
    cases hc
    exact hm.within_new (Nat.lt_irrefl _) ((hhas _).mpr (.inr rfl))
  addClass := by
    intro m k hm hk
    have hhas := Heap.has_addClass m.heap k
    refine ⟨hm.alters (hm.closed.addClass hk) (.of_eq (fun c hc => (hhas c).mpr (.inl hc)) rfl rfl) rfl, ?_⟩
    intro c hc
    cases hc
    exact hm.within_new (Nat.lt_irrefl _) ((hhas _).mpr (.inr rfl))
  addObject := by
    intro m k hm hk
    refine ⟨hm.alters (hm.closed.addObject (hk _ rfl)) (hm.spares_addObject _) rfl, ?_⟩
    intro c hc
    cases hc
    exact hm.within_new (Nat.lt_irrefl _) ((Heap.has_addObject _ _ _).mpr (.inr rfl))

/-- At the start of a call the cells within reach are those that are reachable. -/
theorem Machine.confined_start (hnatives : m.heap.natives = #[.clock]) (values : List Value) :
    m.Confined m.heap values where
  closed := by
    intro c c' hc hr
    rcases hc with hreach | ⟨hnot, hhas⟩
    · exact .inl (.step hreach hr)
    · exact absurd hhas hnot
  grown := fun _ hc => hc
  natives := hnatives

/-- **A call leaves scopes and objects out of its reach as they were.** -/
theorem call_keeps_confined (hnatives : m.heap.natives = #[.clock]) (steps : Nat) (callee : Value)
    (args : List Value) (line : Nat) :
    (Regime.confined m.heap (callee :: args)).Keeps
      (fun v m' => (Regime.confined m.heap (callee :: args)).value m' v) (call steps callee args line) m := by
  have hvalue : ∀ v ∈ callee :: args, (Regime.confined m.heap (callee :: args)).value m v :=
    fun v hv c hc => .inl (.value hv hc)
  refine ((Regime.confined_lawful _ _).governs steps).call (Machine.confined_start hnatives _) ?_ ?_
  · exact hvalue callee List.mem_cons_self
  · exact fun v hv => hvalue v (List.mem_cons_of_mem _ hv)

end Confined

end Scriptlet
