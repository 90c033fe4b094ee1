import Scriptlet.Proofs.Heap.Equality
import Scriptlet.Proofs.Heap.Receivers

/-!
# What lasts in the heap

The heap only grows: of what is in it, nothing changes but the values of names and fields.  Nor does anything refer to
what comes later, so scopes end in the global scope and arrays are never nested in themselves.

* `Heap.Holds h v` — what the value refers to is in the heap.
* `Heap.Lasts h h'` — everything in `h` is in `h'`, with the same place in the nesting, the same elements, the same
  declaration and closure, the same methods, the same class.
* `Heap.Ordered h` — scopes end in the global scope, arrays only hold arrays from before them, and all that anything
  refers to is in the heap.
* `Heap.Evolves h h'` — names and fields got values and things were added, out of what was there at the time.
* `Heap.Added h h' i` — the array at position `i` was added on the way, when its elements were there.

Principal results: `Evolves.lasts` — everything lasts as the heap evolves; `Evolves.ordered` — the heap stays ordered;
`Evolves.added` — the elements of every array are there before it.
-/

set_option autoImplicit false

namespace Scriptlet

namespace Heap

/-- What the value refers to is in the heap. -/
def Holds (h : Heap) (v : Value) : Prop := ∀ c, v.cell? = some c → h.Has c

/-- Everything in a heap is in another one as well.  Names of scopes and fields of objects may have other values, and
there may be more of them. -/
structure Lasts (h h' : Heap) : Prop where
  has : ∀ c, h.Has c → h'.Has c
  enclosing : ∀ i < h.scopes.size, (h'.scope i).enclosing = (h.scope i).enclosing
  names : ∀ i name, (h.scope i).names.binds name = true → (h'.scope i).names.binds name = true
  arrays : ∀ i < h.arrays.size, h'.array i = h.array i
  functions : ∀ i < h.functions.size, h'.function i = h.function i
  classes : ∀ i < h.classes.size, h'.cls i = h.cls i
  instances : ∀ i < h.objects.size, (h'.object i).cls = (h.object i).cls

/-- References lead to what was there before. -/
structure Ordered (h : Heap) : Prop where
  global : h.Has (.scope globalScope)
  root : (h.scope globalScope).enclosing = none
  /-- The scopes outward from any scope end in the global one. -/
  chains : ∀ i, h.Has (.scope i) → ∃ d, h.ancestor? i d = some globalScope
  /-- Arrays only hold arrays from before them. -/
  founded : h.Founded
  /-- Nothing refers to what is not in the heap. -/
  closed : ∀ c c', h.Has c → h.Refers c c' → h.Has c'

/-- The changes of a heap, one after another.  What is stored or added refers to what is there already. -/
inductive Evolves : Heap → Heap → Prop where
  | refl (h : Heap) : Evolves h h
  | trans {h h₁ h' : Heap} : Evolves h h₁ → Evolves h₁ h' → Evolves h h'
  | define {h : Heap} {v : Value} (i : ScopeId) (name : String) : h.Holds v → Evolves h (h.define i name v)
  | setField {h : Heap} {v : Value} (i : ObjectId) (name : String) : h.Holds v → Evolves h (h.setField i name v)
  | addScope {h : Heap} {i : ScopeId} {names : Bindings} : h.Has (.scope i) → (∀ entry ∈ names, h.Holds entry.2) →
      Evolves h (h.addScope ⟨some i, names⟩)
  | addArray {h : Heap} {items : List Value} : (∀ v ∈ items, h.Holds v) → Evolves h (h.addArray items)
  | addFunction {h : Heap} {f : Function} : h.Has (.scope f.closure) → Evolves h (h.addFunction f)
  | addClass {h : Heap} {k : Class} : (∀ entry ∈ k.methods, h.Has (.scope entry.2.closure)) → Evolves h (h.addClass k)
  | addObject {h : Heap} {k : ClassId} : h.Has (.cls k) → Evolves h (h.addObject ⟨k, []⟩)

/-- The array was added to a heap that had all its elements. -/
def Added (h h' : Heap) (i : ArrayId) : Prop :=
  ∃ h₀, h.Evolves h₀ ∧ h₀.arrays.size = i ∧ (∀ v ∈ h'.array i, h₀.Holds v) ∧ (h₀.addArray (h'.array i)).Evolves h'

/-! ## Lasting -/

section Lasts

variable {h h' h₁ : Heap}

theorem Lasts.refl (h : Heap) : h.Lasts h :=
  ⟨fun _ hc => hc, fun _ _ => rfl, fun _ _ hb => hb, fun _ _ => rfl, fun _ _ => rfl, fun _ _ => rfl, fun _ _ => rfl⟩

theorem Lasts.trans (g : h.Lasts h₁) (g' : h₁.Lasts h') : h.Lasts h' where
  has := fun c hc => g'.has c (g.has c hc)
  enclosing := fun i hi => (g'.enclosing i (g.has (.scope i) hi)).trans (g.enclosing i hi)
  names := fun i name hb => g'.names i name (g.names i name hb)
  arrays := fun i hi => (g'.arrays i (g.has (.array i) hi)).trans (g.arrays i hi)
  functions := fun i hi => (g'.functions i (g.has (.function i) hi)).trans (g.functions i hi)
  classes := fun i hi => (g'.classes i (g.has (.cls i) hi)).trans (g.classes i hi)
  instances := fun i hi => (g'.instances i (g.has (.object i) hi)).trans (g.instances i hi)

theorem Holds.lasts {v : Value} (hv : h.Holds v) (g : h.Lasts h') : h'.Holds v := fun c hc => g.has c (hv c hc)

/-- The scopes outward from a scope stay the same. -/
theorem Lasts.ancestor? (g : h.Lasts h') {i owner : ScopeId} {d : Nat} (ho : h.ancestor? i d = some owner) :
    h'.ancestor? i d = some owner := by
  induction d generalizing i with
  | zero => exact ho
  | succ d ih =>
      unfold Heap.ancestor? at ho ⊢
      cases houter : (h.scope i).enclosing with
      | none =>
          rw [houter] at ho
          cases ho
      | some outer =>
          rw [houter] at ho
          rw [g.enclosing i (lt_size_of_enclosing houter), houter]
          exact ih ho

theorem Lasts.define (h : Heap) (i : ScopeId) (name : String) (value : Value) : h.Lasts (h.define i name value) where
  has := by
    intro c hc
    cases c <;> simpa [Has, Heap.define] using hc
  enclosing := fun j _ => enclosing_define h i name value j
  names := (Grows.define h i name value).binds
  arrays := fun _ _ => rfl
  functions := fun _ _ => rfl
  classes := fun _ _ => rfl
  instances := fun _ _ => rfl

theorem Lasts.setField (h : Heap) (i : ObjectId) (name : String) (value : Value) :
    h.Lasts (h.setField i name value) where
  has := by
    intro c hc
    cases c <;> simpa [Has, Heap.setField] using hc
  enclosing := fun _ _ => rfl
  names := fun _ _ hb => hb
  arrays := fun _ _ => rfl
  functions := fun _ _ => rfl
  classes := fun _ _ => rfl
  instances := (Held.setField h i name value).classes

theorem Lasts.addScope (h : Heap) (s : Scope) : h.Lasts (h.addScope s) where
  has := fun c hc => (has_addScope h s c).mpr (.inl hc)
  enclosing := (Held.addScope h s).enclosing
  names := (Grows.addScope h s).binds
  arrays := fun _ _ => rfl
  functions := fun _ _ => rfl
  classes := fun _ _ => rfl
  instances := fun _ _ => rfl

theorem Lasts.addArray (h : Heap) (items : List Value) : h.Lasts (h.addArray items) where
  has := fun c hc => (has_addArray h items c).mpr (.inl hc)
  enclosing := fun _ _ => rfl
  names := fun _ _ hb => hb
  arrays := fun i hi => by rw [array_addArray, if_neg (Nat.ne_of_lt hi)]
  functions := fun _ _ => rfl
  classes := fun _ _ => rfl
  instances := fun _ _ => rfl

theorem Lasts.addFunction (h : Heap) (f : Function) : h.Lasts (h.addFunction f) where
  has := fun c hc => (has_addFunction h f c).mpr (.inl hc)
  enclosing := fun _ _ => rfl
  names := fun _ _ hb => hb
  arrays := fun _ _ => rfl
  functions := fun i hi => by rw [function_addFunction, if_neg (Nat.ne_of_lt hi)]
  classes := fun _ _ => rfl
  instances := fun _ _ => rfl

theorem Lasts.addClass (h : Heap) (k : Class) : h.Lasts (h.addClass k) where
  has := fun c hc => (has_addClass h k c).mpr (.inl hc)
  enclosing := fun _ _ => rfl
  names := fun _ _ hb => hb
  arrays := fun _ _ => rfl
  functions := fun _ _ => rfl
  classes := fun i hi => by rw [cls_addClass, if_neg (Nat.ne_of_lt hi)]
  instances := fun _ _ => rfl

theorem Lasts.addObject (h : Heap) (o : Object) : h.Lasts (h.addObject o) where
  has := fun c hc => (has_addObject h o c).mpr (.inl hc)
  enclosing := fun _ _ => rfl
  names := fun _ _ hb => hb
  arrays := fun _ _ => rfl
  functions := fun _ _ => rfl
  classes := fun _ _ => rfl
  instances := (Held.addObject h o).classes

end Lasts

/-! ## References to what is there -/

/-- A heap with nothing in it.  What is new since then is all there is. -/
def void : Heap := ⟨#[], #[], #[], #[], #[], #[]⟩

theorem not_has_void (c : Cell) : ¬ void.Has c := by
  cases c <;> exact Nat.not_lt_zero _

/-- Nothing is reached in it but the place of the global scope. -/
theorem eq_global_of_reaches_void {c : Cell} (hc : void.Reaches [] c) : c = .scope globalScope := by
  induction hc with
  | global => rfl
  | value hv _ => cases hv
  | step _ hr ih =>
      subst ih
      cases hr with
      | enclosing he => cases he
      | bound hentry _ => cases hentry

section Ordered

variable {h h' : Heap} {c : Cell} {v : Value}

theorem within_void (hc : h.Has c) : void.Within [] h c := .inr ⟨not_has_void c, hc⟩

theorem has_of_within_void (hglobal : h.Has (.scope globalScope)) (hc : void.Within [] h c) : h.Has c := by
  rcases hc with hreach | ⟨-, hc⟩
  · exact eq_global_of_reaches_void hreach ▸ hglobal
  · exact hc

theorem Ordered.closed_void (hh : h.Ordered) : void.Closed [] h :=
  fun c c' hc hr => within_void (hh.closed c c' (has_of_within_void hh.global hc) hr)

/-- **What a change of the heap has to respect to leave it ordered.** -/
theorem Ordered.lasts (hh : h.Ordered) (g : h.Lasts h')
    (hchains : ∀ i, h'.Has (.scope i) → h.Has (.scope i) ∨ ∃ d, h'.ancestor? i d = some globalScope)
    (hfounded : h'.Founded) (hclosed : void.Closed [] h') : h'.Ordered where
  global := g.has _ hh.global
  root := (g.enclosing _ hh.global).trans hh.root
  chains := by
    intro i hi
    rcases hchains i hi with hold | hnew
    · obtain ⟨d, hd⟩ := hh.chains i hold
      exact ⟨d, g.ancestor? hd⟩
    · exact hnew
  founded := hfounded
  closed := fun c c' hc hr => has_of_within_void (g.has _ hh.global) (hclosed c c' (within_void hc) hr)

theorem Ordered.define (hh : h.Ordered) (i : ScopeId) (name : String) (hv : h.Holds v) :
    (h.define i name v).Ordered := by
  refine hh.lasts (.define h i name v) (fun j hj => .inl ?_) hh.founded ?_
  · simpa [Has, Heap.define] using hj
  · exact hh.closed_void.define fun c hc => within_void (hv c hc)

theorem Ordered.setField (hh : h.Ordered) (i : ObjectId) (name : String) (hv : h.Holds v) :
    (h.setField i name v).Ordered :=
  hh.lasts (.setField h i name v) (fun _ hj => .inl hj) hh.founded
    (hh.closed_void.setField fun c hc => within_void (hv c hc))

theorem Ordered.addScope (hh : h.Ordered) {i : ScopeId} {names : Bindings} (hi : h.Has (.scope i))
    (hnames : ∀ entry ∈ names, h.Holds entry.2) : (h.addScope ⟨some i, names⟩).Ordered := by
  have g := Lasts.addScope h ⟨some i, names⟩
  refine hh.lasts g (fun j hj => ?_) hh.founded ?_
  · rcases (has_addScope h _ _).mp hj with hold | hnew
    · exact .inl hold
    · -- The new scope is one step away from the scope around it.
      cases hnew
      obtain ⟨d, hd⟩ := hh.chains i hi
      refine .inr ⟨d + 1, ?_⟩
      rw [ancestor?, scope_addScope, if_pos rfl]
      exact g.ancestor? hd
  · refine hh.closed_void.addScope (fun j hj => ?_) fun entry hentry c hc => within_void (hnames entry hentry c hc)
    cases hj
    exact within_void hi

theorem Ordered.addArray (hh : h.Ordered) {items : List Value} (hitems : ∀ w ∈ items, h.Holds w) :
    (h.addArray items).Ordered := by
  refine hh.lasts (.addArray h items) (fun _ hj => .inl hj) (fun i j hj => ?_) ?_
  · rw [array_addArray] at hj
    split at hj
    · rename_i heq
      exact heq ▸ hitems _ hj _ rfl
    · exact hh.founded i j hj
  · exact hh.closed_void.addArray fun w hw c hc => within_void (hitems w hw c hc)

theorem Ordered.addFunction (hh : h.Ordered) {f : Function} (hf : h.Has (.scope f.closure)) :
    (h.addFunction f).Ordered :=
  hh.lasts (.addFunction h f) (fun _ hj => .inl hj) hh.founded (hh.closed_void.addFunction (within_void hf))

theorem Ordered.addClass (hh : h.Ordered) {k : Class} (hk : ∀ entry ∈ k.methods, h.Has (.scope entry.2.closure)) :
    (h.addClass k).Ordered :=
  hh.lasts (.addClass h k) (fun _ hj => .inl hj) hh.founded
    (hh.closed_void.addClass fun entry hentry => within_void (hk entry hentry))

theorem Ordered.addObject (hh : h.Ordered) {k : ClassId} (hk : h.Has (.cls k)) : (h.addObject ⟨k, []⟩).Ordered :=
  hh.lasts (.addObject h ⟨k, []⟩) (fun _ hj => .inl hj) hh.founded (hh.closed_void.addObject (within_void hk))

/-- A heap with a root and a native function, and nothing else. -/
theorem ordered_empty (f : NativeFunction) : (Heap.empty.addNative f).Ordered where
  global := Nat.zero_lt_one
  root := rfl
  chains := by
    intro i hi
    have hzero : i = globalScope := Nat.lt_one_iff.mp hi
    exact ⟨0, congrArg some hzero⟩
  founded := by
    intro i j hj
    cases hj
  closed := by
    intro c c' hc hr
    cases hr with
    | @enclosing i j he =>
        have hzero : i = globalScope := Nat.lt_one_iff.mp hc
        rw [hzero] at he
        cases he
    | @bound i entry _ hentry _ =>
        have hzero : i = globalScope := Nat.lt_one_iff.mp hc
        rw [hzero] at hentry
        cases hentry
    | closure | method | element | cls | field => exact absurd hc (Nat.not_lt_zero _)

/-! ## Reading -/

theorem Ordered.element (hh : h.Ordered) {i : ArrayId} (hi : h.Holds (.array i)) (hv : v ∈ h.array i) : h.Holds v :=
  fun c hc => hh.closed _ c (hi _ rfl) (.element hv hc)

theorem Ordered.cls (hh : h.Ordered) {i : ObjectId} (hi : h.Holds (.object i)) :
    h.Holds (.classRef (h.object i).cls) := by
  intro c hc
  cases hc
  exact hh.closed _ _ (hi _ rfl) .cls

end Ordered

/-! ## Evolution -/

section Evolves

variable {h h' : Heap}

/-- **Everything lasts as the heap evolves.** -/
theorem Evolves.lasts (e : h.Evolves h') : h.Lasts h' := by
  induction e with
  | refl h => exact .refl h
  | trans _ _ ih ih' => exact ih.trans ih'
  | define i name _ => exact .define _ i name _
  | setField i name _ => exact .setField _ i name _
  | addScope _ _ => exact .addScope _ _
  | addArray _ => exact .addArray _ _
  | addFunction _ => exact .addFunction _ _
  | addClass _ => exact .addClass _ _
  | addObject _ => exact .addObject _ _

/-- **An ordered heap evolves into ordered ones.** -/
theorem Evolves.ordered (e : h.Evolves h') (hh : h.Ordered) : h'.Ordered := by
  induction e with
  | refl => exact hh
  | trans _ _ ih ih' => exact ih' (ih hh)
  | define i name hv => exact hh.define i name hv
  | setField i name hv => exact hh.setField i name hv
  | addScope hi hnames => exact hh.addScope hi hnames
  | addArray hitems => exact hh.addArray hitems
  | addFunction hf => exact hh.addFunction hf
  | addClass hk => exact hh.addClass hk
  | addObject hk => exact hh.addObject hk

theorem Evolves.natives (e : h.Evolves h') : h'.natives = h.natives := by
  induction e with
  | trans _ _ ih ih' => exact ih'.trans ih
  | refl | define | setField | addScope | addArray | addFunction | addClass | addObject => rfl

/-- **The elements of a new array are there before the array.** -/
theorem Evolves.added (e : h.Evolves h') {i : ArrayId} (hold : ¬ h.Has (.array i)) (hnew : h'.Has (.array i)) :
    h.Added h' i := by
  induction e with
  | @trans h h₁ h' e e' ih ih' =>
      by_cases hi : h₁.Has (.array i)
      · -- The array was there half way, and did not change since.
        obtain ⟨h₀, hbefore, hsize, hitems, hafter⟩ := ih hold hi
        rw [← e'.lasts.arrays i hi] at hitems hafter
        exact ⟨h₀, hbefore, hsize, hitems, hafter.trans e'⟩
      · obtain ⟨h₀, hbefore, hsize, hitems, hafter⟩ := ih' hi hnew
        exact ⟨h₀, e.trans hbefore, hsize, hitems, hafter⟩
  | @addArray h items hitems =>
      have hi : i = h.arrays.size := by
        rcases (has_addArray h items _).mp hnew with hthere | heq
        · exact absurd hthere hold
        · exact Cell.array.inj heq
      subst hi
      have harray : (h.addArray items).array h.arrays.size = items := by rw [array_addArray, if_pos rfl]
      rw [Added, harray]
      exact ⟨h, .refl h, rfl, hitems, .refl _⟩
  | refl | define | setField | addScope | addFunction | addClass | addObject => exact absurd hnew hold

end Evolves

end Heap

end Scriptlet
