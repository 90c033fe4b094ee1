import Scriptlet.Proofs.Heap.Scopes
import Scriptlet.Proofs.Scoping.Static
import Scriptlet.Run.Machine

/-!
# Scopes at run time and in the text

* `Covers strict h i Γ` — the scopes outward from scope `i` are, one by one, run-time scopes of the scopes
  `Γ` of the text, and the last is nested in the global scope.  In the strict form every name with a
  complete declaration is bound.
* `FunctionFits`, `MethodFits` — the closure of a function covers the scopes in which its declaration is
  scoped.  A method expects one more scope, that of `this`.
* `HeapFits L h` — all functions and methods of the heap fit the layout.

Principal results: `Covers.ancestor` — a distance that stays within the text leads to a local scope;
`HeapFits.grow` — what fits keeps fitting while scopes grow.
-/

set_option autoImplicit false

namespace Scriptlet

/-- The scopes outward from a position are those of the text. -/
def Covers (strict : Bool) (h : Heap) : ScopeId → ScopeStack → Prop
  | i, [] => i = globalScope
  | i, scope :: Γ => i ≠ globalScope ∧
      (strict = true → ∀ name, scope.lookup name = some true →
        (h.scope i).names.binds name = true) ∧
      ∃ j, (h.scope i).enclosing = some j ∧ Covers strict h j Γ

section Covers

variable {strict : Bool} {h h' : Heap} {i : ScopeId} {Γ : ScopeStack}

theorem Covers.grow (g : Heap.Grows h h') : ∀ {i : ScopeId} {Γ : ScopeStack},
    Covers strict h i Γ → Covers strict h' i Γ
  | _, [], hc => hc
  | i, _ :: _, ⟨hi, hb, j, hj, hc⟩ =>
      ⟨hi, fun hs name hn => g.binds i name (hb hs name hn), j, g.enclosing i j hj, hc.grow g⟩

/-- Without strictness only the number of scopes counts. -/
theorem Covers.relax : ∀ {i : ScopeId} {Γ Γ' : ScopeStack}, (strict = true → Γ' = Γ) →
    Γ'.length = Γ.length → Covers strict h i Γ → Covers strict h i Γ'
  | _, [], [], _, _, hc => hc
  | _, [], _ :: _, _, hlen, _ => by simp at hlen
  | _, _ :: _, [], _, hlen, _ => by simp at hlen
  | _, scope :: Γ, scope' :: Γ', heq, hlen, ⟨hi, hb, j, hj, hc⟩ =>
      ⟨hi, fun hs name hn => hb hs name (by have := heq hs; simp_all), j, hj,
        hc.relax (fun hs => by have := heq hs; simp_all) (by simpa using hlen)⟩

/-- **A distance within the text leads to a local scope.** -/
theorem Covers.ancestor : ∀ {i : ScopeId} {Γ : ScopeStack} {distance : Nat} {scope : NameScope},
    Covers strict h i Γ → Γ[distance]? = some scope → ∃ owner, h.ancestor? i distance = some owner ∧
      owner ≠ globalScope ∧ (strict = true → ∀ name, scope.lookup name = some true →
        (h.scope owner).names.binds name = true)
  | _, [], _, _, _, hd => by simp at hd
  | i, _ :: _, 0, _, ⟨hi, hb, _⟩, hd => by
      cases hd
      exact ⟨i, rfl, hi, hb⟩
  | i, _ :: Γ, distance + 1, scope, ⟨_, _, j, hj, hc⟩, hd => by
      obtain ⟨owner, ho, hrest⟩ := hc.ancestor (by simpa using hd)
      exact ⟨owner, by rw [Heap.ancestor?, hj]; exact ho, hrest⟩

/-- A scope of the text is in the heap. -/
theorem Covers.lt_size (hsize : globalScope < h.scopes.size) (hc : Covers strict h i Γ) :
    i < h.scopes.size := by
  cases Γ with
  | nil => exact hc ▸ hsize
  | cons scope Γ =>
      obtain ⟨_, _, j, hj, _⟩ := hc
      exact Heap.lt_size_of_enclosing hj

/-- A new scope inside a covered one. -/
theorem Covers.push (hsize : globalScope < h.scopes.size) (hc : Covers strict h i Γ)
    {names : Bindings} {scope : NameScope}
    (hb : strict = true → ∀ name, scope.lookup name = some true → names.binds name = true) :
    Covers strict (h.addScope ⟨some i, names⟩) h.scopes.size (scope :: Γ) := by
  refine ⟨fun heq => ?_, fun hs name hn => ?_, i, ?_, hc.grow (.addScope h _)⟩
  · rw [heq] at hsize
    exact Nat.lt_irrefl _ hsize
  · rw [Heap.scope_addScope, if_pos rfl]
    exact hb hs name hn
  · rw [Heap.scope_addScope, if_pos rfl]

/-- A name that was just defined has a complete declaration. -/
theorem Covers.define (hsize : globalScope < h.scopes.size) (hc : Covers strict h i Γ) (name : Ident)
    (value : Value) : Covers strict (h.define i name.name value) i (Γ.introduce name) := by
  have hlt := hc.lt_size hsize
  have hc' := hc.grow (.define h i name.name value)
  cases Γ with
  | nil => exact hc'
  | cons scope Γ =>
      obtain ⟨hi, hb, hrest⟩ := hc'
      refine ⟨hi, fun hs key hkey => ?_, hrest⟩
      by_cases hname : key = name.name
      · rw [Heap.binds_define, hname]
        simp [hlt]
      · refine hb hs key ?_
        have hne : (key == name.name) = false := by simpa using hname
        simpa [List.lookup_cons, hne] using hkey

end Covers

/-! ## Functions -/

/-- The closure of a function covers the scopes of its declaration. -/
structure FunctionFits (L : Layout) (h : Heap) (f : Function) : Prop where
  covers : ∃ Γ, Covers L.strict h f.closure Γ ∧ f.decl.Scoped L Γ
  this : f.isInitializer = true → (h.scope f.closure).names.binds thisName = true

/-- The closure of a method covers all scopes of its declaration but that of `this`. -/
def MethodFits (L : Layout) (h : Heap) (f : Function) : Prop :=
  ∃ Γ, Covers L.strict h f.closure Γ ∧ f.decl.Scoped L ([(thisName, true)] :: Γ)

/-- All functions of the heap fit the layout. -/
structure HeapFits (L : Layout) (h : Heap) : Prop where
  root : (h.scope globalScope).enclosing = none
  inhabited : globalScope < h.scopes.size
  functions : ∀ i, FunctionFits L h (h.function i)
  methods : ∀ i, ∀ entry ∈ (h.cls i).methods, MethodFits L h entry.2

section Fits

variable {L L' : Layout} {h h' : Heap} {f : Function}

theorem FunctionFits.grow (g : Heap.Grows h h') (hf : FunctionFits L h f) : FunctionFits L h' f := by
  obtain ⟨⟨Γ, hc, hs⟩, ht⟩ := hf
  exact ⟨⟨Γ, hc.grow g, hs⟩, fun hi => g.binds _ _ (ht hi)⟩

theorem MethodFits.grow (g : Heap.Grows h h') (hf : MethodFits L h f) : MethodFits L h' f := by
  obtain ⟨Γ, hc, hs⟩ := hf
  exact ⟨Γ, hc.grow g, hs⟩

/-- What fits a layout fits a larger one. -/
theorem FunctionFits.extend (hL : L.Extends L') (hf : FunctionFits L h f) : FunctionFits L' h f := by
  obtain ⟨⟨Γ, hc, hs⟩, ht⟩ := hf
  exact ⟨⟨Γ, hL.strict ▸ hc, hs.grow hL⟩, ht⟩

theorem MethodFits.extend (hL : L.Extends L') (hf : MethodFits L h f) : MethodFits L' h f := by
  obtain ⟨Γ, hc, hs⟩ := hf
  exact ⟨Γ, hL.strict ▸ hc, hs.grow hL⟩

theorem HeapFits.extend (hL : L.Extends L') (hh : HeapFits L h) : HeapFits L' h :=
  ⟨hh.root, hh.inhabited, fun i => (hh.functions i).extend hL,
    fun i entry hm => (hh.methods i entry hm).extend hL⟩

/-- The heap fits after its scopes have grown. -/
theorem HeapFits.grow (g : Heap.Grows h h') (hh : HeapFits L h)
    (hroot : (h'.scope globalScope).enclosing = none) (hsize : globalScope < h'.scopes.size)
    (hfunctions : h'.functions = h.functions) (hclasses : h'.classes = h.classes) :
    HeapFits L h' where
  root := hroot
  inhabited := hsize
  functions := by
    intro i
    have := (hh.functions i).grow g
    unfold Heap.function at this ⊢
    rwa [hfunctions]
  methods := by
    intro i entry hm
    unfold Heap.cls at hm
    rw [hclasses] at hm
    exact (hh.methods i entry hm).grow g

theorem HeapFits.addScope (hh : HeapFits L h) (s : Scope) : HeapFits L (h.addScope s) := by
  refine hh.grow (.addScope h s) ?_ ?_ rfl rfl
  · rw [Heap.scope_addScope, if_neg (Nat.ne_of_lt hh.inhabited)]
    exact hh.root
  · have := hh.inhabited
    simp only [Heap.addScope, Array.size_push]
    exact Nat.lt_succ_of_lt this

theorem HeapFits.define (hh : HeapFits L h) (i : ScopeId) (name : String) (value : Value) :
    HeapFits L (h.define i name value) := by
  refine hh.grow (.define h i name value) ?_ ?_ rfl rfl
  · rw [Heap.enclosing_define]
    exact hh.root
  · simpa [Heap.define] using hh.inhabited

theorem Heap.function_addFunction (h : Heap) (f : Function) (i : FunctionId) :
    (h.addFunction f).function i = if i = h.functions.size then f else h.function i := by
  unfold Heap.function Heap.addFunction
  rw [Array.getD_eq_getD_getElem?, Array.getD_eq_getD_getElem?, Array.getElem?_push]
  split <;> simp_all

theorem Heap.cls_addClass (h : Heap) (c : Class) (i : ClassId) :
    (h.addClass c).cls i = if i = h.classes.size then c else h.cls i := by
  unfold Heap.cls Heap.addClass
  rw [Array.getD_eq_getD_getElem?, Array.getD_eq_getD_getElem?, Array.getElem?_push]
  split <;> simp_all

theorem HeapFits.addFunction (hh : HeapFits L h) (hf : FunctionFits L h f) :
    HeapFits L (h.addFunction f) where
  root := hh.root
  inhabited := hh.inhabited
  functions := by
    intro i
    rw [Heap.function_addFunction]
    split
    · exact hf.grow (.addFunction h f)
    · exact (hh.functions i).grow (.addFunction h f)
  methods := fun i entry hm => (hh.methods i entry hm).grow (.addFunction h f)

theorem HeapFits.addClass {c : Class} (hh : HeapFits L h)
    (hc : ∀ entry ∈ c.methods, MethodFits L h entry.2) : HeapFits L (h.addClass c) where
  root := hh.root
  inhabited := hh.inhabited
  functions := fun i => (hh.functions i).grow (.addClass h c)
  methods := by
    intro i entry hm
    rw [Heap.cls_addClass] at hm
    split at hm
    · exact (hc entry hm).grow (.addClass h c)
    · exact (hh.methods i entry hm).grow (.addClass h c)

/-- The heap fits after a change to arrays, objects and native functions. -/
theorem HeapFits.of_eq (hh : HeapFits L h) (hscopes : h'.scopes = h.scopes)
    (hfunctions : h'.functions = h.functions) (hclasses : h'.classes = h.classes) : HeapFits L h' := by
  refine hh.grow (.of_scopes_eq hscopes) ?_ ?_ hfunctions hclasses
  · have := hh.root
    unfold Heap.scope at this ⊢
    rwa [hscopes]
  · rw [hscopes]
    exact hh.inhabited

end Fits

end Scriptlet
