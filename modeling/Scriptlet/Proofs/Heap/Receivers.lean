import Scriptlet.Proofs.Run.Confined
import Scriptlet.Proofs.Scoping.Frames

/-!
# Scopes of `this`

Binding a method to an object makes a scope that binds `this` and nothing else.  A scope is plain if it does not bind
`this`.

* `Heap.receiver? h i` — the value of `this` in the nearest scope outward from `i` that binds it.
* `Heap.Held h h'` — plain scopes stay plain, scopes that bind `this` stay as they are, and no scope changes its place
  in the nesting.
* `Chained h i F` — the scopes outward from `i` bind `this` where the frame `F` says so.
* `HeapFramed L h` — scopes that bind `this` bind it to an object and bind nothing else; all functions and methods of
  the heap are framed, each by the scopes of its closure.

Principal results: `Chained.receiver` — the distance to the nearest scope of `this` in the frame leads to the receiver;
`Heap.Held.receiver?` — receivers never change.
-/

set_option autoImplicit false

namespace Scriptlet

namespace Heap

/-- Whether a scope binds `this`. -/
def bindsThis (h : Heap) (i : ScopeId) : Bool := (h.scope i).names.binds thisName

/-- The value of `this` in the nearest scope outward that binds it. -/
def receiver? (h : Heap) (i : ScopeId) : Option Value := h.search? i thisName

/-- A scope of the heap that does not bind `this`. -/
structure Plain (h : Heap) (i : ScopeId) : Prop where
  lt : i < h.scopes.size
  free : h.bindsThis i = false

/-- Scopes are nested in earlier ones. -/
def Nested (h : Heap) : Prop := ∀ i j, (h.scope i).enclosing = some j → j < i

/-- What no step of a run changes. -/
structure Held (h h' : Heap) : Prop where
  scopes : h.scopes.size ≤ h'.scopes.size
  enclosing : ∀ i < h.scopes.size, (h'.scope i).enclosing = (h.scope i).enclosing
  plain : ∀ i, h.Plain i → h'.Plain i
  bound : ∀ i, h.bindsThis i = true → h'.scope i = h.scope i
  objects : h.objects.size ≤ h'.objects.size
  classes : ∀ i < h.objects.size, (h'.object i).cls = (h.object i).cls

section Held

variable {h h' h₁ : Heap} {i : ScopeId}

theorem lt_size_of_bindsThis (hi : h.bindsThis i = true) : i < h.scopes.size := by
  refine Nat.lt_of_not_le fun hle => ?_
  rw [bindsThis, scope_of_size_le hle] at hi
  cases hi

theorem Held.bindsThis (g : Held h h') (hi : i < h.scopes.size) : h'.bindsThis i = h.bindsThis i := by
  cases hb : h.bindsThis i with
  | true => rw [Heap.bindsThis, g.bound i hb, ← Heap.bindsThis, hb]
  | false => exact (g.plain i ⟨hi, hb⟩).free

theorem Held.refl (h : Heap) : Held h h :=
  ⟨Nat.le_refl _, fun _ _ => rfl, fun _ hi => hi, fun _ _ => rfl, Nat.le_refl _, fun _ _ => rfl⟩

theorem Held.trans (g : Held h h₁) (g' : Held h₁ h') : Held h h' where
  scopes := Nat.le_trans g.scopes g'.scopes
  enclosing := fun i hi => (g'.enclosing i (Nat.lt_of_lt_of_le hi g.scopes)).trans (g.enclosing i hi)
  plain := fun i hi => g'.plain i (g.plain i hi)
  bound := by
    intro i hi
    have hi₁ : h₁.bindsThis i = true := (g.bindsThis (lt_size_of_bindsThis hi)).trans hi
    exact (g'.bound i hi₁).trans (g.bound i hi)
  objects := Nat.le_trans g.objects g'.objects
  classes := fun i hi => (g'.classes i (Nat.lt_of_lt_of_le hi g.objects)).trans (g.classes i hi)

/-- A change to neither scopes nor objects. -/
theorem Held.of_eq (hscopes : h'.scopes = h.scopes) (hobjects : h'.objects = h.objects) : Held h h' := by
  have hscope : ∀ i, h'.scope i = h.scope i := fun i => by rw [scope, scope, hscopes]
  have hobject : ∀ i, h'.object i = h.object i := fun i => by rw [object, object, hobjects]
  refine ⟨Nat.le_of_eq (by rw [hscopes]), fun i _ => by rw [hscope], fun i hi => ⟨?_, ?_⟩, fun i _ => hscope i,
    Nat.le_of_eq (by rw [hobjects]), fun i _ => by rw [hobject]⟩
  · rw [hscopes]
    exact hi.lt
  · rw [Heap.bindsThis, hscope]
    exact hi.free

theorem Held.addFunction (h : Heap) (f : Function) : Held h (h.addFunction f) := .of_eq rfl rfl

theorem Held.addClass (h : Heap) (c : Class) : Held h (h.addClass c) := .of_eq rfl rfl

theorem scope_addScope_of_lt (h : Heap) (s : Scope) (hi : i < h.scopes.size) : (h.addScope s).scope i = h.scope i := by
  rw [scope_addScope, if_neg (Nat.ne_of_lt hi)]

theorem Held.addScope (h : Heap) (s : Scope) : Held h (h.addScope s) where
  scopes := by simp [Heap.addScope]
  enclosing := fun i hi => by rw [scope_addScope_of_lt h s hi]
  plain := by
    intro i hi
    refine ⟨Nat.lt_of_lt_of_le hi.lt (by simp [Heap.addScope]), ?_⟩
    rw [Heap.bindsThis, scope_addScope_of_lt h s hi.lt]
    exact hi.free
  bound := fun i hi => scope_addScope_of_lt h s (lt_size_of_bindsThis hi)
  objects := Nat.le_refl _
  classes := fun _ _ => rfl

theorem bindsThis_define {name : String} (hname : name ≠ thisName) (value : Value) (j : ScopeId) :
    (h.define i name value).bindsThis j = h.bindsThis j := by
  rw [Heap.bindsThis, binds_define, decide_eq_false (Ne.symm hname), Bool.and_false, Bool.false_or, ← Heap.bindsThis]

/-- Another name is bound in a plain scope. -/
theorem Held.define {name : String} (hi : h.Plain i) (hname : name ≠ thisName) (value : Value) :
    Held h (h.define i name value) where
  scopes := by simp [Heap.define]
  enclosing := fun j _ => enclosing_define h i name value j
  plain := by
    intro j hj
    refine ⟨by simpa [Heap.define] using hj.lt, ?_⟩
    rw [bindsThis_define hname]
    exact hj.free
  bound := by
    intro j hj
    have hne : ¬ (i = j ∧ j < h.scopes.size) := by
      rintro ⟨rfl, -⟩
      rw [hi.free] at hj
      cases hj
    rw [scope_define, if_neg hne]
  objects := Nat.le_refl _
  classes := fun _ _ => rfl

theorem Held.of_objects (hscopes : h'.scopes = h.scopes) (hsize : h.objects.size ≤ h'.objects.size)
    (hclasses : ∀ i < h.objects.size, (h'.object i).cls = (h.object i).cls) : Held h h' := by
  have g : Held h { h' with objects := h.objects } := .of_eq hscopes rfl
  exact ⟨g.scopes, g.enclosing, fun i hi => ⟨(g.plain i hi).lt, (g.plain i hi).free⟩, g.bound, hsize, hclasses⟩

theorem Held.addObject (h : Heap) (o : Object) : Held h (h.addObject o) := by
  refine .of_objects rfl (by simp [Heap.addObject]) fun i hi => ?_
  rw [object_addObject, if_neg (Nat.ne_of_lt hi)]

theorem Held.setField (h : Heap) (i : ObjectId) (name : String) (value : Value) :
    Held h (h.setField i name value) := by
  refine .of_objects rfl (by simp [Heap.setField]) fun j _ => ?_
  rw [object_setField]
  split <;> rfl

/-! ## Receivers -/

theorem ownerWithin_binds {name : String} : ∀ {bound : Nat} {i owner : ScopeId},
    h.ownerWithin name bound i = some owner → (h.scope owner).names.binds name = true
  | bound + 1, i, owner, ho => by
      rw [ownerWithin] at ho
      split at ho
      · rename_i hb
        cases ho
        exact hb
      · split at ho
        · exact ownerWithin_binds ho
        · cases ho

theorem Held.ownerWithin (g : Held h h') (hnested : h.Nested) (bound : Nat) (hi : i < h.scopes.size) :
    h'.ownerWithin thisName bound i = h.ownerWithin thisName bound i := by
  induction bound generalizing i with
  | zero => rfl
  | succ bound ih =>
      have hb : (h'.scope i).names.binds thisName = (h.scope i).names.binds thisName := g.bindsThis hi
      rw [Heap.ownerWithin, Heap.ownerWithin, hb, g.enclosing i hi]
      cases houter : (h.scope i).enclosing with
      | none => rfl
      | some outer =>
          have hlt : outer < h.scopes.size := Nat.lt_trans (hnested i outer houter) hi
          simp only [ih hlt]

/-- **The receiver of a scope never changes.** -/
theorem Held.receiver? (g : Held h h') (hnested : h.Nested) (hi : i < h.scopes.size) :
    h'.receiver? i = h.receiver? i := by
  unfold Heap.receiver? search? owner?
  rw [g.ownerWithin hnested (i + 1) hi]
  cases howner : h.ownerWithin thisName (i + 1) i with
  | none => rfl
  | some owner =>
      rw [Option.bind_some, Option.bind_some, g.bound owner (ownerWithin_binds howner)]

end Held

end Heap

/-! ## Chains of scopes -/

/-- The scopes outward from a position bind `this` where the frame says so, and end in the global scope. -/
def Chained (h : Heap) : ScopeId → Frame → Prop
  | i, [] => i = globalScope
  | i, b :: F => h.bindsThis i = b ∧ ∃ j, (h.scope i).enclosing = some j ∧ Chained h j F

section Chained

variable {h h' : Heap} {i : ScopeId} {F : Frame}

theorem Chained.held (g : Heap.Held h h') : ∀ {i : ScopeId} {F : Frame}, Chained h i F → Chained h' i F
  | _, [], hc => hc
  | i, _ :: _, ⟨hb, j, hj, hc⟩ => by
      have hi := Heap.lt_size_of_enclosing hj
      exact ⟨(g.bindsThis hi).trans hb, j, (g.enclosing i hi).trans hj, hc.held g⟩

theorem Chained.lt_size (hglobal : globalScope < h.scopes.size) (hc : Chained h i F) : i < h.scopes.size := by
  cases F with
  | nil => exact hc ▸ hglobal
  | cons b F =>
      obtain ⟨-, j, hj, -⟩ := hc
      exact Heap.lt_size_of_enclosing hj

/-- A new scope inside a chain. -/
theorem Chained.push {names : Bindings} {b : Bool} (hc : Chained h i F) (hb : names.binds thisName = b) :
    Chained (h.addScope ⟨some i, names⟩) h.scopes.size (b :: F) := by
  have hscope : (h.addScope ⟨some i, names⟩).scope h.scopes.size = ⟨some i, names⟩ := by
    rw [Heap.scope_addScope, if_pos rfl]
  refine ⟨?_, i, ?_, hc.held (.addScope h _)⟩
  · rw [Heap.bindsThis, hscope]
    exact hb
  · rw [hscope]

/-- A distance within the frame leads to a scope as the frame says. -/
theorem Chained.ancestor : ∀ {i : ScopeId} {F : Frame} {d : Nat} {b : Bool}, Chained h i F → F[d]? = some b →
    ∃ owner, h.ancestor? i d = some owner ∧ owner < h.scopes.size ∧ h.bindsThis owner = b
  | i, _ :: _, 0, _, ⟨hb, j, hj, _⟩, hd => by
      cases hd
      exact ⟨i, rfl, Heap.lt_size_of_enclosing hj, hb⟩
  | i, _ :: F, d + 1, b, ⟨_, j, hj, hc⟩, hd => by
      obtain ⟨owner, howner, hrest⟩ := hc.ancestor (List.getElem?_cons_succ ▸ hd)
      exact ⟨owner, by rw [Heap.ancestor?, hj]; exact howner, hrest⟩

theorem Chained.ownerWithin (hnested : h.Nested) : ∀ {i : ScopeId} {F : Frame} {d bound : Nat}, Chained h i F →
    F.findIdx? id = some d → i < bound → ∃ owner, h.ancestor? i d = some owner ∧ h.bindsThis owner = true ∧
      h.ownerWithin thisName bound i = some owner
  | i, true :: F, d, bound + 1, ⟨hb, _⟩, hd, _ => by
      cases hd
      exact ⟨i, rfl, hb, by rw [Heap.ownerWithin]; exact if_pos hb⟩
  | i, false :: F, d, bound + 1, ⟨hb, j, hj, hc⟩, hd, hbound => by
      rw [List.findIdx?_cons] at hd
      obtain ⟨d', hd', rfl⟩ := Option.map_eq_some_iff.mp hd
      have hlt : j < bound := Nat.lt_of_lt_of_le (hnested i j hj) (Nat.le_of_lt_succ hbound)
      obtain ⟨owner, howner, hthis, hwithin⟩ := hc.ownerWithin hnested hd' hlt
      refine ⟨owner, by rw [Heap.ancestor?, hj]; exact howner, hthis, ?_⟩
      have hfree : (h.scope i).names.binds thisName = false := hb
      rw [Heap.ownerWithin, hfree, hj]
      exact hwithin

/-- **The distance to the nearest scope of `this` leads to the scope where a search for `this` ends.** -/
theorem Chained.receiver {d : Nat} (hnested : h.Nested) (hc : Chained h i F) (hd : F.findIdx? id = some d) :
    ∃ owner, h.ancestor? i d = some owner ∧ h.bindsThis owner = true ∧ h.owner? i thisName = some owner :=
  hc.ownerWithin hnested hd (Nat.lt_succ_self i)

end Chained

/-! ## Functions -/

/-- A function is framed by the scopes of its closure; a call of an initializer yields what `this` is there. -/
structure FunctionFramed (L : Layout) (h : Heap) (f : Function) : Prop where
  chained : ∃ F, Chained h f.closure F ∧ f.decl.Framed L F
  this : f.isInitializer = true → h.bindsThis f.closure = true

/-- A method is framed by the scopes of its closure and that of `this`. -/
def MethodFramed (L : Layout) (h : Heap) (f : Function) : Prop :=
  ∃ F, Chained h f.closure F ∧ f.decl.Framed L (true :: F)

/-- The scopes that bind `this` bind nothing else, and all functions of the heap are framed. -/
structure HeapFramed (L : Layout) (h : Heap) : Prop where
  root : (h.scope globalScope).enclosing = none
  global : h.Plain globalScope
  nested : h.Nested
  exact : ∀ i, h.bindsThis i = true → ∃ o, (h.scope i).names = [(thisName, .object o)]
  functions : ∀ i, FunctionFramed L h (h.function i)
  methods : ∀ i, ∀ entry ∈ (h.cls i).methods, MethodFramed L h entry.2

section Framed

variable {L L' : Layout} {h h' : Heap} {f : Function}

theorem FunctionFramed.held (g : Heap.Held h h') (hf : FunctionFramed L h f) : FunctionFramed L h' f := by
  obtain ⟨⟨F, hc, hd⟩, hthis⟩ := hf
  refine ⟨⟨F, hc.held g, hd⟩, fun hinit => ?_⟩
  rw [Heap.bindsThis, g.bound _ (hthis hinit)]
  exact hthis hinit

theorem MethodFramed.held (g : Heap.Held h h') (hf : MethodFramed L h f) : MethodFramed L h' f := by
  obtain ⟨F, hc, hd⟩ := hf
  exact ⟨F, hc.held g, hd⟩

theorem FunctionFramed.extend (hL : L.Extends L') (hf : FunctionFramed L h f) : FunctionFramed L' h f := by
  obtain ⟨⟨F, hc, hd⟩, hthis⟩ := hf
  exact ⟨⟨F, hc, hd.grow hL⟩, hthis⟩

theorem MethodFramed.extend (hL : L.Extends L') (hf : MethodFramed L h f) : MethodFramed L' h f := by
  obtain ⟨F, hc, hd⟩ := hf
  exact ⟨F, hc, hd.grow hL⟩

theorem HeapFramed.extend (hL : L.Extends L') (hh : HeapFramed L h) : HeapFramed L' h :=
  ⟨hh.root, hh.global, hh.nested, hh.exact, fun i => (hh.functions i).extend hL,
    fun i entry hm => (hh.methods i entry hm).extend hL⟩

/-- The heap is framed after a change that makes no functions and classes. -/
theorem HeapFramed.held (hh : HeapFramed L h) (g : Heap.Held h h') (hnested : h'.Nested)
    (hexact : ∀ i, h'.bindsThis i = true → ∃ o, (h'.scope i).names = [(thisName, .object o)])
    (hfunctions : h'.functions = h.functions) (hclasses : h'.classes = h.classes) : HeapFramed L h' where
  root := (g.enclosing _ hh.global.lt).trans hh.root
  global := g.plain _ hh.global
  nested := hnested
  exact := hexact
  functions := by
    intro i
    have hf := (hh.functions i).held g
    unfold Heap.function at hf ⊢
    rwa [hfunctions]
  methods := by
    intro i entry hm
    unfold Heap.cls at hm
    rw [hclasses] at hm
    exact (hh.methods i entry hm).held g

/-- A new scope binds `this` to an object and nothing else, or does not bind it. -/
theorem HeapFramed.addScope (hh : HeapFramed L h) {i : ScopeId} (hi : i < h.scopes.size) {names : Bindings}
    (hnames : names.binds thisName = true → ∃ o, names = [(thisName, .object o)]) :
    HeapFramed L (h.addScope ⟨some i, names⟩) := by
  refine hh.held (.addScope h _) (fun j k hk => ?_) (fun j hj => ?_) rfl rfl
  · rw [Heap.scope_addScope] at hk
    split at hk
    · rename_i heq
      cases hk
      exact heq ▸ hi
    · exact hh.nested j k hk
  · rw [Heap.bindsThis, Heap.scope_addScope] at hj
    rw [Heap.scope_addScope]
    split at hj
    · rename_i heq
      rw [if_pos heq]
      exact hnames hj
    · rename_i hne
      rw [if_neg hne]
      exact hh.exact j hj

theorem HeapFramed.define (hh : HeapFramed L h) {i : ScopeId} (hi : h.Plain i) {name : String}
    (hname : name ≠ thisName) (value : Value) : HeapFramed L (h.define i name value) := by
  have g := Heap.Held.define hi hname value
  refine hh.held g (fun j k hk => ?_) (fun j hj => ?_) rfl rfl
  · rw [Heap.enclosing_define] at hk
    exact hh.nested j k hk
  · rw [Heap.bindsThis_define hname] at hj
    rw [g.bound j hj]
    exact hh.exact j hj

theorem HeapFramed.of_eq (hh : HeapFramed L h) (g : Heap.Held h h') (hscopes : h'.scopes = h.scopes)
    (hfunctions : h'.functions = h.functions) (hclasses : h'.classes = h.classes) : HeapFramed L h' := by
  have hscope : ∀ i, h'.scope i = h.scope i := fun i => by rw [Heap.scope, Heap.scope, hscopes]
  refine hh.held g (fun j k hk => ?_) (fun j hj => ?_) hfunctions hclasses
  · rw [hscope] at hk
    exact hh.nested j k hk
  · rw [Heap.bindsThis, hscope] at hj
    rw [hscope]
    exact hh.exact j hj

theorem HeapFramed.addFunction (hh : HeapFramed L h) (hf : FunctionFramed L h f) : HeapFramed L (h.addFunction f) where
  root := hh.root
  global := ⟨hh.global.lt, hh.global.free⟩
  nested := hh.nested
  exact := hh.exact
  functions := by
    intro i
    rw [Heap.function_addFunction]
    split
    · exact hf.held (.addFunction h f)
    · exact (hh.functions i).held (.addFunction h f)
  methods := fun i entry hm => (hh.methods i entry hm).held (.addFunction h f)

theorem HeapFramed.addClass {c : Class} (hh : HeapFramed L h) (hc : ∀ entry ∈ c.methods, MethodFramed L h entry.2) :
    HeapFramed L (h.addClass c) where
  root := hh.root
  global := ⟨hh.global.lt, hh.global.free⟩
  nested := hh.nested
  exact := hh.exact
  functions := fun i => (hh.functions i).held (.addClass h c)
  methods := by
    intro i entry hm
    rw [Heap.cls_addClass] at hm
    split at hm
    · exact (hc entry hm).held (.addClass h c)
    · exact (hh.methods i entry hm).held (.addClass h c)

/-- The methods of a class are framed by the scope in which the class is declared. -/
theorem methodsOf_framed {i : ScopeId} {F : Frame} {decls : List FunctionDecl} (hc : Chained h i F)
    (hs : FunctionDecl.FramedAll L (true :: F) decls) : ∀ entry ∈ methodsOf i decls, MethodFramed L h entry.2 := by
  intro entry hentry
  obtain ⟨decl, hdecl, rfl⟩ := List.mem_map.mp hentry
  exact ⟨F, hc, FunctionDecl.framedAll_iff.mp hs decl (List.mem_reverse.mp hdecl)⟩

end Framed

end Scriptlet
