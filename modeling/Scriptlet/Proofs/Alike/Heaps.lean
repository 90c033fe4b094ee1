import Scriptlet.Proofs.Alike.Trees
import Scriptlet.Proofs.Heap.Readings
import Scriptlet.Proofs.Scoping.Covers

/-!
# Heaps alike

Two heaps are alike if they differ in the names of local scopes only: every scope has a renaming, and the functions of
the two heaps are alike in the scopes around their closures.

* `Renamings` — the renaming of each scope.
* `Marked ρ h i Φ` — `Φ` are the renamings of the local scopes outward from scope `i`.
* `Function.Alike`, `Class.Alike`, `Heap.Alike` — what is allocated is alike.
* `Moved ρ ρ₁ h h₁` — the scopes of `h` are still there in `h₁`, with their renamings.

Principal results: `Marked.ancestor` — a distance leads to a scope with the expected renaming; `Heap.Alike.define`,
`Heap.Alike.addScope`, … — writing and allocating keep heaps alike; `Heap.Alike.refl` — a heap that fits a layout is
like itself.
-/

set_option autoImplicit false

namespace Scriptlet

/-! ## Renamed bindings -/

namespace Bindings

theorem insert_onKeys (σ : NameMap) (name : String) (value : Value) (names : Bindings) :
    Bindings.insert (σ name) value (σ.onKeys names) = σ.onKeys (Bindings.insert name value names) := by
  induction names with
  | nil => rfl
  | cons entry names ih =>
      obtain ⟨key, old⟩ := entry
      have hcons : σ.onKeys ((key, old) :: names) = (σ key, old) :: σ.onKeys names := rfl
      rw [hcons, insert, insert]
      by_cases hkey : key = name
      · rw [if_pos hkey, if_pos (congrArg σ hkey)]
        rfl
      · rw [if_neg hkey, if_neg fun heq => hkey (σ.injective heq), ih]
        rfl

/-- Renamed parameters bind renamed names. -/
theorem ofParameters_alike {σ : NameMap} {params params' : List Ident} (args : List Value)
    (h : Variation.Parameters σ params params') :
    ofParameters params' args = σ.onKeys (ofParameters params args) := by
  have hfold : ∀ (params params' : List Ident) (args : List Value) (names : Bindings),
      Variation.Parameters σ params params' →
      (params'.zip args).foldl (fun names pair => Bindings.insert pair.1.name pair.2 names) (σ.onKeys names) =
        σ.onKeys ((params.zip args).foldl (fun names pair => Bindings.insert pair.1.name pair.2 names) names) := by
    intro params
    induction params with
    | nil =>
        intro params' args names h
        obtain rfl := List.map_eq_nil_iff.mp h
        rfl
    | cons param params ih =>
        intro params' args names h
        unfold Variation.Parameters at h
        obtain ⟨param', rest, rfl, hname, hrest⟩ := List.map_eq_cons_iff.mp h
        cases args with
        | nil => rfl
        | cons arg args =>
            simp only [List.zip_cons_cons, List.foldl_cons]
            rw [hname, insert_onKeys]
            exact ih rest args _ hrest
  exact hfold params params' args [] h

end Bindings

/-! ## Renamed scopes -/

/-- The renaming of each scope. -/
abbrev Renamings := ScopeId → NameMap

/-- The renamings of the local scopes outward from a scope. -/
def Marked (ρ : Renamings) (h : Heap) : ScopeId → List NameMap → Prop
  | i, [] => i = globalScope
  | i, σ :: Φ => ρ i = σ ∧ ∃ j, (h.scope i).enclosing = some j ∧ Marked ρ h j Φ

/-- The scopes of a heap are still there, with their renamings. -/
structure Moved (ρ ρ₁ : Renamings) (h h₁ : Heap) : Prop where
  size : h.scopes.size ≤ h₁.scopes.size
  grows : h.Grows h₁
  kept : ∀ i, i < h.scopes.size → ρ₁ i = ρ i

namespace Moved

variable {ρ ρ₁ ρ₂ : Renamings} {h h₁ h₂ : Heap}

theorem refl (ρ : Renamings) (h : Heap) : Moved ρ ρ h h := ⟨Nat.le_refl _, .refl h, fun _ _ => rfl⟩

theorem trans (hm : Moved ρ ρ₁ h h₁) (hm' : Moved ρ₁ ρ₂ h₁ h₂) : Moved ρ ρ₂ h h₂ where
  size := Nat.le_trans hm.size hm'.size
  grows := hm.grows.trans hm'.grows
  kept := fun i hi => (hm'.kept i (Nat.lt_of_lt_of_le hi hm.size)).trans (hm.kept i hi)

theorem of_scopes_eq (heq : h₁.scopes = h.scopes) : Moved ρ ρ h h₁ :=
  ⟨Nat.le_of_eq (by rw [heq]), .of_scopes_eq heq, fun _ _ => rfl⟩

theorem define (ρ : Renamings) (h : Heap) (i : ScopeId) (name : String) (value : Value) :
    Moved ρ ρ h (h.define i name value) :=
  ⟨Nat.le_of_eq (by simp [Heap.define]), .define h i name value, fun _ _ => rfl⟩

end Moved

/-- The renamings after a scope is added. -/
def Renamings.push (ρ : Renamings) (h : Heap) (σ : NameMap) : Renamings :=
  fun i => if i = h.scopes.size then σ else ρ i

theorem Moved.addScope (ρ : Renamings) (h : Heap) (σ : NameMap) (s : Scope) :
    Moved ρ (ρ.push h σ) h (h.addScope s) where
  size := by simp [Heap.addScope]
  grows := .addScope h s
  kept := fun _ hi => if_neg (Nat.ne_of_lt hi)

section Marked

variable {ρ ρ₁ : Renamings} {h h₁ : Heap}

theorem Marked.move (hm : Moved ρ ρ₁ h h₁) : ∀ {i : ScopeId} {Φ : List NameMap}, Marked ρ h i Φ →
    Marked ρ₁ h₁ i Φ
  | _, [], hi => hi
  | i, _ :: _, ⟨hσ, j, hj, hrest⟩ =>
      ⟨(hm.kept i (Heap.lt_size_of_enclosing hj)).trans hσ, j, hm.grows.enclosing i j hj, hrest.move hm⟩

/-- A new scope inside a marked one. -/
theorem Marked.push {i : ScopeId} {Φ : List NameMap} (hi : Marked ρ h i Φ) (σ : NameMap) (names : Bindings) :
    Marked (ρ.push h σ) (h.addScope ⟨some i, names⟩) h.scopes.size (σ :: Φ) := by
  refine ⟨if_pos rfl, i, ?_, hi.move (.addScope ρ h σ _)⟩
  rw [Heap.scope_addScope, if_pos rfl]

/-- **A distance leads to a scope with the expected renaming.**  Distances past the local scopes lead to the global
scope or nowhere. -/
theorem Marked.ancestor (hroot : (h.scope globalScope).enclosing = none) (hglobal : ρ globalScope = .keep) :
    ∀ {i : ScopeId} {Φ : List NameMap} {distance : Nat} {owner : ScopeId}, Marked ρ h i Φ →
      h.ancestor? i distance = some owner → ρ owner = Φ.getD distance .keep
  | i, [], 0, owner, hi, ho => by
      cases ho
      rw [show i = globalScope from hi, hglobal]
      rfl
  | i, [], distance + 1, owner, hi, ho => by
      rw [Heap.ancestor?, show i = globalScope from hi, hroot] at ho
      cases ho
  | i, σ :: Φ, 0, owner, hi, ho => by
      cases ho
      exact hi.1
  | i, σ :: Φ, distance + 1, owner, ⟨_, j, hj, hrest⟩, ho => by
      rw [Heap.ancestor?, hj] at ho
      exact hrest.ancestor hroot hglobal ho

end Marked

/-- The scopes of two heaps differ in names only. -/
structure ScopesAlike (V : Variation) (ρ : Renamings) (h h' : Heap) : Prop where
  size : h'.scopes.size = h.scopes.size
  enclosing : ∀ i, (h'.scope i).enclosing = (h.scope i).enclosing
  names : ∀ i, (h'.scope i).names = (ρ i).onKeys (h.scope i).names
  maps : ∀ i, V.maps (ρ i)
  global : ρ globalScope = .keep
  root : (h.scope globalScope).enclosing = none
  inhabited : globalScope < h.scopes.size

namespace ScopesAlike

variable {V : Variation} {ρ : Renamings} {h h' : Heap}

theorem get? (hs : ScopesAlike V ρ h h') (i : ScopeId) (name : String) :
    (h'.scope i).names.get? (ρ i name) = (h.scope i).names.get? name := by
  rw [hs.names]
  exact NameMap.lookup_onKeys _ _ _

theorem ancestor? (hs : ScopesAlike V ρ h h') (i : ScopeId) (distance : Nat) :
    h'.ancestor? i distance = h.ancestor? i distance := by
  induction distance generalizing i with
  | zero => rfl
  | succ distance ih =>
      unfold Heap.ancestor?
      rw [hs.enclosing]
      cases (h.scope i).enclosing with
      | none => rfl
      | some j => exact ih j

/-- The global scope of the two heaps is the same. -/
theorem scope_global (hs : ScopesAlike V ρ h h') : h'.scope globalScope = h.scope globalScope := by
  have hnames := hs.names globalScope
  rw [hs.global, NameMap.onKeys_keep] at hnames
  have henclosing := hs.enclosing globalScope
  cases hscope : h'.scope globalScope
  cases hscope' : h.scope globalScope
  simp_all

theorem owner?_global (hs : ScopesAlike V ρ h h') (name : String) :
    h'.owner? globalScope name = h.owner? globalScope name := by
  unfold Heap.owner? Heap.ownerWithin
  rw [hs.scope_global, hs.root]

theorem search?_global (hs : ScopesAlike V ρ h h') (name : String) :
    h'.search? globalScope name = h.search? globalScope name := by
  unfold Heap.search?
  rw [hs.owner?_global]
  cases howner : h.owner? globalScope name with
  | none => rfl
  | some owner =>
      obtain ⟨rfl, -⟩ := Heap.owner?_of_root hs.root howner
      simp only [Option.bind, hs.scope_global]

theorem define (hs : ScopesAlike V ρ h h') (i : ScopeId) (name : String) (value : Value) :
    ScopesAlike V ρ (h.define i name value) (h'.define i (ρ i name) value) where
  size := by simpa [Heap.define] using hs.size
  enclosing := by
    intro j
    rw [Heap.enclosing_define, Heap.enclosing_define]
    exact hs.enclosing j
  names := by
    intro j
    rw [Heap.scope_define, Heap.scope_define, hs.size]
    by_cases hj : i = j ∧ j < h.scopes.size
    · rw [if_pos hj, if_pos hj]
      simp only
      rw [hs.names, ← hj.1, Bindings.insert_onKeys]
    · rw [if_neg hj, if_neg hj]
      exact hs.names j
  maps := hs.maps
  global := hs.global
  root := by
    rw [Heap.enclosing_define]
    exact hs.root
  inhabited := by simpa [Heap.define] using hs.inhabited

theorem addScope (hs : ScopesAlike V ρ h h') (i : ScopeId) (names : Bindings) {σ : NameMap} (hσ : V.maps σ) :
    ScopesAlike V (ρ.push h σ) (h.addScope ⟨some i, names⟩) (h'.addScope ⟨some i, σ.onKeys names⟩) where
  size := by simp [Heap.addScope, hs.size]
  enclosing := by
    intro j
    rw [Heap.scope_addScope, Heap.scope_addScope, hs.size]
    split
    · rfl
    · exact hs.enclosing j
  names := by
    intro j
    rw [Heap.scope_addScope, Heap.scope_addScope, hs.size, Renamings.push]
    split
    · rfl
    · exact hs.names j
  maps := by
    intro j
    unfold Renamings.push
    split
    · exact hσ
    · exact hs.maps j
  global := by
    rw [Renamings.push, if_neg (Nat.ne_of_lt hs.inhabited)]
    exact hs.global
  root := by
    rw [Heap.scope_addScope, if_neg (Nat.ne_of_lt hs.inhabited)]
    exact hs.root
  inhabited := by
    have := hs.inhabited
    simp only [Heap.addScope, Array.size_push]
    exact Nat.lt_succ_of_lt this

/-- Only the scopes of the heaps count. -/
theorem of_eq {h₁ h₁' : Heap} (hs : ScopesAlike V ρ h h') (heq : h₁.scopes = h.scopes)
    (heq' : h₁'.scopes = h'.scopes) : ScopesAlike V ρ h₁ h₁' := by
  have hscope : ∀ i, h₁.scope i = h.scope i := fun i => by unfold Heap.scope; rw [heq]
  have hscope' : ∀ i, h₁'.scope i = h'.scope i := fun i => by unfold Heap.scope; rw [heq']
  refine ⟨?_, fun i => ?_, fun i => ?_, hs.maps, hs.global, ?_, ?_⟩
  · rw [heq, heq']
    exact hs.size
  · rw [hscope, hscope']
    exact hs.enclosing i
  · rw [hscope, hscope']
    exact hs.names i
  · rw [hscope]
    exact hs.root
  · rw [heq]
    exact hs.inhabited

end ScopesAlike

/-! ## Functions and classes -/

/-- Functions alike.  Between the closure of a function and its own scope there are `inner` more scopes to come: none,
or that of `this` for a method. -/
structure Function.Alike (V : Variation) (ρ : Renamings) (h : Heap) (inner : List NameMap) (f f' : Function) :
    Prop where
  closure : f'.closure = f.closure
  isInitializer : f'.isInitializer = f.isInitializer
  decl : ∃ Φ, Marked ρ h f.closure Φ ∧ f.decl.Alike V (inner ++ Φ) f'.decl

/-- Classes alike. -/
structure Class.Alike (V : Variation) (ρ : Renamings) (h : Heap) (c c' : Class) : Prop where
  name : c'.name = c.name
  method : ∀ name, Option.Rel (Function.Alike V ρ h [.keep]) (c.method? name) (c'.method? name)

theorem rel_imp {α β : Type} {R S : α → β → Prop} (himp : ∀ a b, R a b → S a b) {a? : Option α}
    {b? : Option β} (h : Option.Rel R a? b?) : Option.Rel S a? b? := by
  cases h with
  | none => exact .none
  | some hab => exact .some (himp _ _ hab)

section Move

variable {V : Variation} {ρ ρ₁ : Renamings} {h h₁ : Heap} {inner : List NameMap} {f f' : Function}
  {c c' : Class}

theorem Function.Alike.move (hm : Moved ρ ρ₁ h h₁) (hf : f.Alike V ρ h inner f') :
    f.Alike V ρ₁ h₁ inner f' := by
  obtain ⟨Φ, hΦ, hdecl⟩ := hf.decl
  exact ⟨hf.closure, hf.isInitializer, Φ, hΦ.move hm, hdecl⟩

theorem Function.Alike.name (hf : f.Alike V ρ h inner f') : f'.name = f.name := by
  obtain ⟨Φ, -, hdecl⟩ := hf.decl
  exact hdecl.name

theorem Function.Alike.arity (hf : f.Alike V ρ h inner f') : f'.arity = f.arity := by
  obtain ⟨Φ, -, hdecl⟩ := hf.decl
  exact hdecl.arity

theorem Class.Alike.move (hm : Moved ρ ρ₁ h h₁) (hc : c.Alike V ρ h c') : c.Alike V ρ₁ h₁ c' :=
  ⟨hc.name, fun name => rel_imp (fun _ _ hf => hf.move hm) (hc.method name)⟩

theorem Class.Alike.arity (hc : c.Alike V ρ h c') : c'.arity = c.arity := by
  have hmethod := hc.method constructorName
  unfold Class.arity
  generalize c.method? constructorName = f? at hmethod ⊢
  generalize c'.method? constructorName = f'? at hmethod ⊢
  cases hmethod with
  | none => rfl
  | some hf => exact hf.arity

theorem lookup_methodsOf_cons (scope : ScopeId) (d : FunctionDecl) (ds : List FunctionDecl) (name : String) :
    (methodsOf scope (d :: ds)).lookup name = ((methodsOf scope ds).lookup name).or
      (if name == d.name.name then some ⟨d, scope, decide (d.name.name = constructorName)⟩ else none) := by
  unfold methodsOf
  rw [List.reverse_cons, List.map_append, List.lookup_append, List.map_singleton, List.lookup_cons]
  cases name == d.name.name <;> rfl

/-- The methods of declarations that are alike. -/
theorem methodsOf_alike {scope : ScopeId} {Φ : List NameMap} (hscope : Marked ρ h scope Φ) (name : String)
    {ds ds' : List FunctionDecl} (hds : FunctionDecl.AlikeAll V (.keep :: Φ) ds ds') :
    Option.Rel (Function.Alike V ρ h [.keep]) ((methodsOf scope ds).lookup name)
      ((methodsOf scope ds').lookup name) := by
  induction ds generalizing ds' with
  | nil =>
      cases hds
      exact .none
  | cons d ds ih =>
      cases hds with
      | @cons _ _ d' _ ds' hd hds =>
          have hrest := ih hds
          rw [lookup_methodsOf_cons, lookup_methodsOf_cons, hd.name]
          generalize (methodsOf scope ds).lookup name = f? at hrest ⊢
          generalize (methodsOf scope ds').lookup name = f'? at hrest ⊢
          cases hrest with
          | some hf => exact .some hf
          | none =>
              rw [Option.none_or, Option.none_or]
              split
              · exact .some ⟨rfl, rfl, Φ, hscope, hd⟩
              · exact .none

end Move

/-! ## Heaps -/

/-- Heaps alike. -/
structure Heap.Alike (V : Variation) (ρ : Renamings) (h h' : Heap) : Prop where
  scopes : ScopesAlike V ρ h h'
  arrays : h'.arrays = h.arrays
  objects : h'.objects = h.objects
  natives : h'.natives = h.natives
  functionCount : h'.functions.size = h.functions.size
  classCount : h'.classes.size = h.classes.size
  functions : ∀ i, (h.function i).Alike V ρ h [] (h'.function i)
  classes : ∀ i, (h.cls i).Alike V ρ h (h'.cls i)

namespace Heap.Alike

variable {V : Variation} {ρ ρ₁ : Renamings} {h h' h₁ h₁' : Heap}

/-! ### Reading -/

theorem looksLike (hh : h.Alike V ρ h') : h.LooksLike h' where
  arrays := hh.arrays
  objects := hh.objects
  natives := hh.natives
  functionName := fun i => (hh.functions i).name
  functionArity := fun i => (hh.functions i).arity
  className := fun i => (hh.classes i).name
  classArity := fun i => (hh.classes i).arity

/-! ### Writing and allocating -/

/-- A change of the scopes. -/
theorem of_scopes (hh : h.Alike V ρ h') (hscopes : ScopesAlike V ρ₁ h₁ h₁') (hm : Moved ρ ρ₁ h h₁)
    (hsame : h₁ = { h with scopes := h₁.scopes }) (hsame' : h₁' = { h' with scopes := h₁'.scopes }) :
    h₁.Alike V ρ₁ h₁' := by
  rw [hsame] at hm hscopes ⊢
  rw [hsame'] at hscopes ⊢
  exact ⟨hscopes, hh.arrays, hh.objects, hh.natives, hh.functionCount, hh.classCount,
    fun i => (hh.functions i).move hm, fun i => (hh.classes i).move hm⟩

theorem define (hh : h.Alike V ρ h') (i : ScopeId) (name : String) (value : Value) :
    (h.define i name value).Alike V ρ (h'.define i (ρ i name) value) :=
  hh.of_scopes (hh.scopes.define i name value) (.define ρ h i name value) rfl rfl

theorem addScope (hh : h.Alike V ρ h') (i : ScopeId) (names : Bindings) {σ : NameMap} (hσ : V.maps σ) :
    (h.addScope ⟨some i, names⟩).Alike V (ρ.push h σ) (h'.addScope ⟨some i, σ.onKeys names⟩) :=
  hh.of_scopes (hh.scopes.addScope i names hσ) (.addScope ρ h σ _) rfl rfl

/-- A change of arrays and objects. -/
theorem of_data (hh : h.Alike V ρ h') (harrays : h₁'.arrays = h₁.arrays) (hobjects : h₁'.objects = h₁.objects)
    (hsame : h₁ = { h with arrays := h₁.arrays, objects := h₁.objects })
    (hsame' : h₁' = { h' with arrays := h₁'.arrays, objects := h₁'.objects }) : h₁.Alike V ρ h₁' := by
  have hm : Moved ρ ρ h h₁ := .of_scopes_eq (by rw [hsame])
  have hscopes : ScopesAlike V ρ h₁ h₁' := hh.scopes.of_eq (by rw [hsame]) (by rw [hsame'])
  rw [hsame] at hm hscopes harrays hobjects ⊢
  rw [hsame'] at hscopes harrays hobjects ⊢
  exact ⟨hscopes, harrays, hobjects, hh.natives, hh.functionCount, hh.classCount,
    fun i => (hh.functions i).move hm, fun i => (hh.classes i).move hm⟩

theorem addArray (hh : h.Alike V ρ h') (items : List Value) :
    (h.addArray items).Alike V ρ (h'.addArray items) := by
  refine hh.of_data ?_ hh.objects rfl rfl
  show h'.arrays.push items = h.arrays.push items
  rw [hh.arrays]

theorem addObject (hh : h.Alike V ρ h') (o : Object) : (h.addObject o).Alike V ρ (h'.addObject o) := by
  refine hh.of_data hh.arrays ?_ rfl rfl
  show h'.objects.push o = h.objects.push o
  rw [hh.objects]

theorem setField (hh : h.Alike V ρ h') (i : ObjectId) (name : String) (value : Value) :
    (h.setField i name value).Alike V ρ (h'.setField i name value) := by
  refine hh.of_data hh.arrays ?_ rfl rfl
  unfold Heap.setField
  rw [hh.objects]

theorem addFunction (hh : h.Alike V ρ h') {f f' : Function} (hf : f.Alike V ρ h [] f') :
    (h.addFunction f).Alike V ρ (h'.addFunction f') where
  scopes := hh.scopes.of_eq rfl rfl
  arrays := hh.arrays
  objects := hh.objects
  natives := hh.natives
  functionCount := by simp [Heap.addFunction, hh.functionCount]
  classCount := hh.classCount
  functions := by
    intro i
    have hm : Moved ρ ρ h (h.addFunction f) := .of_scopes_eq rfl
    rw [Heap.function_addFunction, Heap.function_addFunction, hh.functionCount]
    split
    · exact hf.move hm
    · exact (hh.functions i).move hm
  classes := by
    intro i
    have hm : Moved ρ ρ h (h.addFunction f) := .of_scopes_eq rfl
    exact (hh.classes i).move hm

theorem addClass (hh : h.Alike V ρ h') {c c' : Class} (hc : c.Alike V ρ h c') :
    (h.addClass c).Alike V ρ (h'.addClass c') where
  scopes := hh.scopes.of_eq rfl rfl
  arrays := hh.arrays
  objects := hh.objects
  natives := hh.natives
  functionCount := hh.functionCount
  classCount := by simp [Heap.addClass, hh.classCount]
  functions := by
    intro i
    have hm : Moved ρ ρ h (h.addClass c) := .of_scopes_eq rfl
    exact (hh.functions i).move hm
  classes := by
    intro i
    have hm : Moved ρ ρ h (h.addClass c) := .of_scopes_eq rfl
    rw [Heap.cls_addClass, Heap.cls_addClass, hh.classCount]
    split
    · exact hc.move hm
    · exact (hh.classes i).move hm

/-! ### Weaker variations -/

theorem imp {W : Variation} (hVW : V.Implies W) (hh : h.Alike V ρ h') : h.Alike W ρ h' where
  scopes := { hh.scopes with maps := fun i => hVW.maps (hh.scopes.maps i) }
  arrays := hh.arrays
  objects := hh.objects
  natives := hh.natives
  functionCount := hh.functionCount
  classCount := hh.classCount
  functions := by
    intro i
    obtain ⟨hclosure, hinitializer, Φ, hΦ, hdecl⟩ := hh.functions i
    exact ⟨hclosure, hinitializer, Φ, hΦ, hdecl.imp hVW⟩
  classes := by
    intro i
    refine ⟨(hh.classes i).name, fun name => rel_imp (fun f f' hf => ?_) ((hh.classes i).method name)⟩
    obtain ⟨hclosure, hinitializer, Φ, hΦ, hdecl⟩ := hf
    exact ⟨hclosure, hinitializer, Φ, hΦ, hdecl.imp hVW⟩

end Heap.Alike

/-! ## Likeness of a heap to itself -/

/-- The renamings of scopes that cover scopes of the text, where none is renamed. -/
theorem Covers.marked {strict : Bool} {h : Heap} : ∀ {i : ScopeId} {Γ : ScopeStack}, Covers strict h i Γ →
    Marked (fun _ => .keep) h i (Γ.map fun _ => .keep)
  | _, [], hi => hi
  | _, _ :: _, ⟨_, _, j, hj, hrest⟩ => ⟨rfl, j, hj, hrest.marked⟩

theorem NameMap.keeping_map (Γ : ScopeStack) : NameMap.Keeping (Γ.map fun _ => .keep) := by
  intro σ hσ
  obtain ⟨-, -, rfl⟩ := List.mem_map.mp hσ
  rfl

/-- **A heap that fits a layout is like itself**, under tables that agree on the ids that the layout knows. -/
theorem Heap.Alike.refl {V : Variation} {L : Layout} {h : Heap} (hh : HeapFits L h)
    (htable : ∀ id, id < L.bound → V.table'.distance? id = V.table.distance? id)
    (hlines : ∀ line, V.lines line line) : h.Alike V (fun _ => .keep) h where
  scopes := ⟨rfl, fun _ => rfl, fun _ => (NameMap.onKeys_keep _).symm, fun _ => V.keep, rfl, hh.root,
    hh.inhabited⟩
  arrays := rfl
  objects := rfl
  natives := rfl
  functionCount := rfl
  classCount := rfl
  functions := by
    intro i
    obtain ⟨⟨Γ, hcovers, hscoped⟩, -⟩ := hh.functions i
    refine ⟨rfl, rfl, _, hcovers.marked, ?_⟩
    exact .refl (NameMap.keeping_map Γ) ⟨fun r hr => htable r.id (hscoped.bounded r hr), hlines⟩
  classes := by
    intro i
    refine ⟨rfl, fun name => ?_⟩
    cases hmethod : (h.cls i).method? name with
    | none => exact .none
    | some f =>
        obtain ⟨before, after, heq, -⟩ := List.lookup_eq_some_iff.mp hmethod
        have hmem : (name, f) ∈ (h.cls i).methods := by
          rw [heq]
          exact List.mem_append_right _ List.mem_cons_self
        obtain ⟨Γ, hcovers, hscoped⟩ := hh.methods i _ hmem
        refine .some ⟨rfl, rfl, _, hcovers.marked, ?_⟩
        exact .refl (NameMap.keeping_map Γ).cons ⟨fun r hr => htable r.id (hscoped.bounded r hr), hlines⟩

end Scriptlet
