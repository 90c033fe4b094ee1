import Scriptlet.Proofs.Alike.Heaps
import Scriptlet.Proofs.ForLoops.Shifts

/-!
# Heaps with shifted scopes

Two runs go on from one heap.  The first adds scopes that the second does not have; apart from these, the scopes of the
two heaps are paired, and so are the functions and classes that are declared in them.

* `Pairing` — which scope of the first heap goes with which of the second.
* `Facing n P h h' σ i i'` — outward from the scopes `i` and `i'` there are the scopes that `σ` says, and then, from the
  same scope on, the scopes of the heap at the start, which had `n` of them.
* `ScopesPaired`, `Function.Paired`, `Class.Paired`, `Heap.Paired` — what is allocated is paired.
* `Heap.Bounded h bound` — scopes and functions of the heap are nested in scopes of the heap, and the ids of the
  functions are below a bound.

Principal results: `Facing.ancestor` — distances that lead to the same scope lead to paired ones; `Heap.Paired.define`,
`Heap.Paired.addScope`, `Heap.Paired.addFirst`, … — writing and allocating keep heaps paired; `Heap.Bounded.paired` — a
heap that nothing leads out of is paired with itself.
-/

set_option autoImplicit false

namespace Scriptlet

/-- The scope of the first heap goes with that of the second. -/
abbrev Pairing := ScopeId → ScopeId → Prop

/-- The pairing after a scope is added to both heaps. -/
def Pairing.push (P : Pairing) (h h' : Heap) : Pairing :=
  fun i i' => P i i' ∨ i = h.scopes.size ∧ i' = h'.scopes.size

/-- The scopes outward from a scope of each heap.  Beyond those that the shift lists, they are scopes from the start. -/
def Facing (n : Nat) (P : Pairing) (h h' : Heap) : Shift → ScopeId → ScopeId → Prop
  | [], i, i' => i = i' ∧ i < n
  | true :: σ, i, i' => P i i' ∧ ∃ j j', (h.scope i).enclosing = some j ∧ (h'.scope i').enclosing = some j' ∧
      Facing n P h h' σ j j'
  | false :: σ, i, i' => ∃ j, (h.scope i).enclosing = some j ∧ Facing n P h h' σ j i'

/-- What is paired stays so, while both heaps grow. -/
structure PairsKept (P P₁ : Pairing) (h h₁ h' h₁' : Heap) : Prop where
  pairs : ∀ i i', P i i' → P₁ i i'
  first : h.Grows h₁
  second : h'.Grows h₁'

section PairsKept

variable {P P₁ P₂ : Pairing} {h h₁ h₂ h' h₁' h₂' : Heap}

theorem PairsKept.refl (P : Pairing) (h h' : Heap) : PairsKept P P h h h' h' := ⟨fun _ _ hp => hp, .refl h, .refl h'⟩

theorem PairsKept.trans (hk : PairsKept P P₁ h h₁ h' h₁') (hk' : PairsKept P₁ P₂ h₁ h₂ h₁' h₂') : PairsKept P P₂ h h₂ h' h₂' where
  pairs := fun i i' hp => hk'.pairs i i' (hk.pairs i i' hp)
  first := hk.first.trans hk'.first
  second := hk.second.trans hk'.second

theorem PairsKept.of_scopes_eq (P : Pairing) (heq : h₁.scopes = h.scopes) (heq' : h₁'.scopes = h'.scopes) :
    PairsKept P P h h₁ h' h₁' :=
  ⟨fun _ _ hp => hp, .of_scopes_eq heq, .of_scopes_eq heq'⟩

theorem PairsKept.define (P : Pairing) (h h' : Heap) (i i' : ScopeId) (name : String) (value : Value) :
    PairsKept P P h (h.define i name value) h' (h'.define i' name value) :=
  ⟨fun _ _ hp => hp, .define h i name value, .define h' i' name value⟩

theorem PairsKept.addScope (P : Pairing) (h h' : Heap) (s s' : Scope) :
    PairsKept P (P.push h h') h (h.addScope s) h' (h'.addScope s') :=
  ⟨fun _ _ => .inl, .addScope h s, .addScope h' s'⟩

theorem PairsKept.addFirst (P : Pairing) (h h' : Heap) (s : Scope) : PairsKept P P h (h.addScope s) h' h' :=
  ⟨fun _ _ hp => hp, .addScope h s, .refl h'⟩

theorem Facing.keep {n : Nat} (hk : PairsKept P P₁ h h₁ h' h₁') : ∀ {σ : Shift} {i i' : ScopeId}, Facing n P h h' σ i i' →
    Facing n P₁ h₁ h₁' σ i i'
  | [], _, _, hi => hi
  | true :: _, i, i', ⟨hp, j, j', hj, hj', hrest⟩ =>
      ⟨hk.pairs i i' hp, j, j', hk.first.enclosing i j hj, hk.second.enclosing i' j' hj', hrest.keep hk⟩
  | false :: _, i, _, ⟨j, hj, hrest⟩ => ⟨j, hk.first.enclosing i j hj, hrest.keep hk⟩

/-- New scopes inside facing ones. -/
theorem Facing.push {n : Nat} {σ : Shift} {i i' : ScopeId} (hi : Facing n P h h' σ i i') (names names' : Bindings) :
    Facing n (P.push h h') (h.addScope ⟨some i, names⟩) (h'.addScope ⟨some i', names'⟩) (true :: σ) h.scopes.size
      h'.scopes.size := by
  refine ⟨.inr ⟨rfl, rfl⟩, i, i', ?_, ?_, hi.keep (.addScope P h h' _ _)⟩
  · rw [Heap.scope_addScope, if_pos rfl]
  · rw [Heap.scope_addScope, if_pos rfl]

/-- A new scope of the first side. -/
theorem Facing.pushFirst {n : Nat} {σ : Shift} {i i' : ScopeId} (hi : Facing n P h h' σ i i') (names : Bindings) :
    Facing n P (h.addScope ⟨some i, names⟩) h' (false :: σ) h.scopes.size i' := by
  refine ⟨i, ?_, hi.keep (.addFirst P h h' _)⟩
  rw [Heap.scope_addScope, if_pos rfl]

end PairsKept

/-! ## Paired scopes -/

/-- The scopes from the start are paired with themselves, and paired scopes bind the same names to the same values. -/
structure ScopesPaired (n : Nat) (P : Pairing) (h h' : Heap) : Prop where
  start : ∀ i < n, P i i
  enclosing : ∀ i < n, (h'.scope i).enclosing = (h.scope i).enclosing
  closed : ∀ i < n, ∀ j, (h.scope i).enclosing = some j → j < n
  names : ∀ {i i'}, P i i' → (h'.scope i').names = (h.scope i).names
  first : ∀ {i i' j'}, P i i' → P i j' → i' = j'
  second : ∀ {i j i'}, P i i' → P j i' → i = j
  bounded : ∀ {i i'}, P i i' → i < h.scopes.size ∧ i' < h'.scopes.size
  inhabited : globalScope < n

section ScopesPaired

variable {n : Nat} {P : Pairing} {h h' : Heap} {σ : Shift} {i i' : ScopeId}

/-- Facing scopes in which a declaration may stand are paired. -/
theorem Facing.paired (hs : ScopesPaired n P h h') (hi : Facing n P h h' σ i i') (hσ : σ.Open) : P i i' := by
  cases σ with
  | nil =>
      obtain ⟨rfl, hlt⟩ := hi
      exact hs.start i hlt
  | cons b σ =>
      cases b with
      | true => exact hi.1
      | false => exact absurd rfl hσ

/-- From a scope of the start, the same distance leads to the same scope. -/
theorem ScopesPaired.ancestor (hs : ScopesPaired n P h h') (d : Nat) : ∀ {i : ScopeId}, i < n →
    Option.Rel P (h.ancestor? i d) (h'.ancestor? i d) := by
  induction d with
  | zero => exact fun hi => .some (hs.start _ hi)
  | succ d ih =>
      intro i hi
      unfold Heap.ancestor?
      rw [hs.enclosing i hi]
      cases henclosing : (h.scope i).enclosing with
      | none => exact .none
      | some j => exact ih (hs.closed i hi j henclosing)

/-- **Distances that lead to the same scope lead to paired scopes.** -/
theorem Facing.ancestor (hs : ScopesPaired n P h h') {d d' : Nat} (hd : σ.Leads d d') :
    ∀ {i i' : ScopeId}, Facing n P h h' σ i i' → Option.Rel P (h.ancestor? i d) (h'.ancestor? i' d') := by
  induction hd with
  | beyond d =>
      rintro i _ ⟨rfl, hi⟩
      exact hs.ancestor d hi
  | here σ => exact fun hi => .some hi.1
  | both hd ih =>
      rintro i i' ⟨-, j, j', hj, hj', hrest⟩
      unfold Heap.ancestor?
      rw [hj, hj']
      exact ih hrest
  | extra hd ih =>
      rintro i i' ⟨j, hj, hrest⟩
      rw [Heap.ancestor?, hj]
      exact ih hrest

namespace ScopesPaired

theorem get? (hs : ScopesPaired n P h h') (hi : P i i') (name : String) :
    (h'.scope i').names.get? name = (h.scope i).names.get? name := by
  rw [hs.names hi]

theorem global (hs : ScopesPaired n P h h') : P globalScope globalScope := hs.start _ hs.inhabited

/-- A search from the global scope finds a name there or not at all. -/
theorem owner?_global (h : Heap) (name : String) :
    h.owner? globalScope name = if (h.scope globalScope).names.binds name then some globalScope else none := by
  unfold Heap.owner? Heap.ownerWithin
  split
  · rfl
  · cases (h.scope globalScope).enclosing <;> rfl

theorem search?_global_eq (hs : ScopesPaired n P h h') (name : String) :
    h'.search? globalScope name = h.search? globalScope name := by
  unfold Heap.search?
  rw [owner?_global, owner?_global, hs.names hs.global]
  split
  · exact hs.get? hs.global name
  · rfl

theorem define (hs : ScopesPaired n P h h') (hi : P i i') (name : String) (value : Value) :
    ScopesPaired n P (h.define i name value) (h'.define i' name value) where
  start := hs.start
  enclosing := by
    intro j hj
    rw [Heap.enclosing_define, Heap.enclosing_define]
    exact hs.enclosing j hj
  closed := by
    intro j hj k
    rw [Heap.enclosing_define]
    exact hs.closed j hj k
  names := by
    intro j j' hj
    -- A pair is written to as a whole or not at all.
    have hsame : i = j ∧ j < h.scopes.size ↔ i' = j' ∧ j' < h'.scopes.size := by
      constructor
      · rintro ⟨rfl, -⟩
        exact ⟨hs.first hi hj, (hs.bounded hj).2⟩
      · rintro ⟨rfl, -⟩
        exact ⟨hs.second hi hj, (hs.bounded hj).1⟩
    rw [Heap.scope_define, Heap.scope_define]
    by_cases hwritten : i = j ∧ j < h.scopes.size
    · rw [if_pos hwritten, if_pos (hsame.mp hwritten)]
      exact congrArg (Bindings.insert name value) (hs.names hj)
    · rw [if_neg hwritten, if_neg (mt hsame.mpr hwritten)]
      exact hs.names hj
  first := hs.first
  second := hs.second
  bounded := by
    intro j j' hj
    simpa [Heap.define] using hs.bounded hj
  inhabited := hs.inhabited

theorem lt_size (hs : ScopesPaired n P h h') (hi : i < n) : i < h.scopes.size ∧ i < h'.scopes.size :=
  hs.bounded (hs.start i hi)

theorem addScope (hs : ScopesPaired n P h h') (names : Bindings) (i i' : ScopeId) :
    ScopesPaired n (P.push h h') (h.addScope ⟨some i, names⟩) (h'.addScope ⟨some i', names⟩) where
  start := fun j hj => .inl (hs.start j hj)
  enclosing := by
    intro j hj
    rw [Heap.scope_addScope, Heap.scope_addScope, if_neg (Nat.ne_of_lt (hs.lt_size hj).1),
      if_neg (Nat.ne_of_lt (hs.lt_size hj).2)]
    exact hs.enclosing j hj
  closed := by
    intro j hj k
    rw [Heap.scope_addScope, if_neg (Nat.ne_of_lt (hs.lt_size hj).1)]
    exact hs.closed j hj k
  names := by
    rintro j j' (hj | ⟨rfl, rfl⟩)
    · rw [Heap.scope_addScope, Heap.scope_addScope, if_neg (Nat.ne_of_lt (hs.bounded hj).1),
        if_neg (Nat.ne_of_lt (hs.bounded hj).2)]
      exact hs.names hj
    · rw [Heap.scope_addScope, Heap.scope_addScope, if_pos rfl, if_pos rfl]
  first := by
    rintro j j' k' (hj | ⟨rfl, rfl⟩) (hk | ⟨heq, rfl⟩)
    · exact hs.first hj hk
    · exact absurd heq (Nat.ne_of_lt (hs.bounded hj).1)
    · exact absurd (hs.bounded hk).1 (Nat.lt_irrefl _)
    · rfl
  second := by
    rintro j k j' (hj | ⟨rfl, rfl⟩) (hk | ⟨rfl, heq⟩)
    · exact hs.second hj hk
    · exact absurd heq (Nat.ne_of_lt (hs.bounded hj).2)
    · exact absurd (hs.bounded hk).2 (Nat.lt_irrefl _)
    · rfl
  bounded := by
    rintro j j' (hj | ⟨rfl, rfl⟩)
    · simp only [Heap.addScope, Array.size_push]
      exact ⟨Nat.lt_succ_of_lt (hs.bounded hj).1, Nat.lt_succ_of_lt (hs.bounded hj).2⟩
    · simp only [Heap.addScope, Array.size_push]
      exact ⟨Nat.lt_succ_self _, Nat.lt_succ_self _⟩
  inhabited := hs.inhabited

/-- A new scope of the first heap is not paired. -/
theorem addFirst (hs : ScopesPaired n P h h') (s : Scope) : ScopesPaired n P (h.addScope s) h' where
  start := hs.start
  enclosing := by
    intro j hj
    rw [Heap.scope_addScope, if_neg (Nat.ne_of_lt (hs.lt_size hj).1)]
    exact hs.enclosing j hj
  closed := by
    intro j hj k
    rw [Heap.scope_addScope, if_neg (Nat.ne_of_lt (hs.lt_size hj).1)]
    exact hs.closed j hj k
  names := by
    intro j j' hj
    rw [Heap.scope_addScope, if_neg (Nat.ne_of_lt (hs.bounded hj).1)]
    exact hs.names hj
  first := hs.first
  second := hs.second
  bounded := by
    intro j j' hj
    simp only [Heap.addScope, Array.size_push]
    exact ⟨Nat.lt_succ_of_lt (hs.bounded hj).1, (hs.bounded hj).2⟩
  inhabited := hs.inhabited

/-- Only the scopes of the heaps count. -/
theorem of_eq {h₁ h₁' : Heap} (hs : ScopesPaired n P h h') (heq : h₁.scopes = h.scopes)
    (heq' : h₁'.scopes = h'.scopes) : ScopesPaired n P h₁ h₁' := by
  have hscope : ∀ i, h₁.scope i = h.scope i := fun i => by unfold Heap.scope; rw [heq]
  have hscope' : ∀ i, h₁'.scope i = h'.scope i := fun i => by unfold Heap.scope; rw [heq']
  refine ⟨hs.start, fun i => ?_, fun i => ?_, fun {i i'} => ?_, hs.first, hs.second, ?_, hs.inhabited⟩
  · rw [hscope, hscope']
    exact hs.enclosing i
  · rw [hscope]
    exact hs.closed i
  · rw [hscope, hscope']
    exact hs.names
  · rw [heq, heq']
    exact hs.bounded

/-- A scope from the start is the same in both heaps. -/
theorem scope_eq (hs : ScopesPaired n P h h') (hi : i < n) : h'.scope i = h.scope i := by
  have hnames := hs.names (hs.start i hi)
  have henclosing := hs.enclosing i hi
  cases hscope : h'.scope i
  cases hscope' : h.scope i
  simp_all

end ScopesPaired

end ScopesPaired

/-! ## Paired functions and classes -/

/-- Paired functions: the second is the first with its ids renamed.  Between the closure of a function and its own scope
there are `inner` more scopes to come: none, or that of `this` for a method. -/
structure Function.Paired (T T' : DistanceTable) (n : Nat) (P : Pairing) (h h' : Heap) (inner : Shift)
    (f f' : Function) : Prop where
  isInitializer : f'.isInitializer = f.isInitializer
  decl : ∃ g σ, σ.Open ∧ Facing n P h h' σ f.closure f'.closure ∧ f.decl.Shifted T T' g (inner ++ σ) ∧
    f'.decl = f.decl.mapIds g

/-- Paired classes. -/
structure Class.Paired (T T' : DistanceTable) (n : Nat) (P : Pairing) (h h' : Heap) (c c' : Class) : Prop where
  name : c'.name = c.name
  method : ∀ name, Option.Rel (Function.Paired T T' n P h h' [true]) (c.method? name) (c'.method? name)

section Paired

variable {T T' : DistanceTable} {n : Nat} {P P₁ : Pairing} {h h₁ h' h₁' : Heap} {inner : Shift} {f f' : Function}
  {c c' : Class}

theorem Function.Paired.keep (hk : PairsKept P P₁ h h₁ h' h₁') (hf : f.Paired T T' n P h h' inner f') :
    f.Paired T T' n P₁ h₁ h₁' inner f' := by
  obtain ⟨hinitializer, g, σ, hopen, hfacing, hdecl, heq⟩ := hf
  exact ⟨hinitializer, g, σ, hopen, hfacing.keep hk, hdecl, heq⟩

theorem Function.Paired.name (hf : f.Paired T T' n P h h' inner f') : f'.name = f.name := by
  obtain ⟨-, g, σ, -, -, -, heq⟩ := hf
  rw [Function.name, heq, FunctionDecl.name_mapIds, Function.name]

theorem Function.Paired.arity (hf : f.Paired T T' n P h h' inner f') : f'.arity = f.arity := by
  obtain ⟨-, g, σ, -, -, -, heq⟩ := hf
  rw [Function.arity, heq, FunctionDecl.arity, FunctionDecl.params_mapIds]
  rfl

theorem Class.Paired.keep (hk : PairsKept P P₁ h h₁ h' h₁') (hc : c.Paired T T' n P h h' c') : c.Paired T T' n P₁ h₁ h₁' c' :=
  ⟨hc.name, fun name => rel_imp (fun _ _ hf => hf.keep hk) (hc.method name)⟩

theorem Class.Paired.arity (hc : c.Paired T T' n P h h' c') : c'.arity = c.arity := by
  have hmethod := hc.method constructorName
  unfold Class.arity
  generalize c.method? constructorName = f? at hmethod ⊢
  generalize c'.method? constructorName = f'? at hmethod ⊢
  cases hmethod with
  | none => rfl
  | some hf => exact hf.arity

/-- The methods of a class that is declared in facing scopes. -/
theorem methodsOf_paired {σ : Shift} (hσ : σ.Open) {i i' : ScopeId} (hi : Facing n P h h' σ i i')
    (g : NodeId → NodeId) (name : String) {ds : List FunctionDecl} (hds : FunctionDecl.ShiftedAll T T' g (true :: σ) ds) :
    Option.Rel (Function.Paired T T' n P h h' [true]) ((methodsOf i ds).lookup name)
      ((methodsOf i' (FunctionDecl.mapIdsAll g ds)).lookup name) := by
  induction ds with
  | nil => exact .none
  | cons d ds ih =>
      have hrest := ih hds.2
      rw [FunctionDecl.mapIdsAll, lookup_methodsOf_cons, lookup_methodsOf_cons, FunctionDecl.name_mapIds]
      generalize (methodsOf i ds).lookup name = f? at hrest ⊢
      generalize (methodsOf i' (FunctionDecl.mapIdsAll g ds)).lookup name = f'? at hrest ⊢
      cases hrest with
      | some hf => exact .some hf
      | none =>
          rw [Option.none_or, Option.none_or]
          split
          · exact .some ⟨rfl, g, σ, hσ, hi, hds.1, rfl⟩
          · exact .none

end Paired

/-! ## Paired heaps -/

/-- Paired heaps: only scopes, and the functions that are declared in them, differ. -/
structure Heap.Paired (T T' : DistanceTable) (n : Nat) (P : Pairing) (h h' : Heap) : Prop where
  scopes : ScopesPaired n P h h'
  arrays : h'.arrays = h.arrays
  objects : h'.objects = h.objects
  natives : h'.natives = h.natives
  functionCount : h'.functions.size = h.functions.size
  classCount : h'.classes.size = h.classes.size
  functions : ∀ i, (h.function i).Paired T T' n P h h' [] (h'.function i)
  classes : ∀ i, (h.cls i).Paired T T' n P h h' (h'.cls i)

namespace Heap.Paired

variable {T T' : DistanceTable} {n : Nat} {P P₁ : Pairing} {h h' h₁ h₁' : Heap}

theorem looksLike (hh : h.Paired T T' n P h') : h.LooksLike h' where
  arrays := hh.arrays
  objects := hh.objects
  natives := hh.natives
  functionName := fun i => (hh.functions i).name
  functionArity := fun i => (hh.functions i).arity
  className := fun i => (hh.classes i).name
  classArity := fun i => (hh.classes i).arity

/-- A change of the scopes. -/
theorem of_scopes (hh : h.Paired T T' n P h') (hscopes : ScopesPaired n P₁ h₁ h₁') (hk : PairsKept P P₁ h h₁ h' h₁')
    (hsame : h₁ = { h with scopes := h₁.scopes }) (hsame' : h₁' = { h' with scopes := h₁'.scopes }) :
    h₁.Paired T T' n P₁ h₁' := by
  rw [hsame] at hk hscopes ⊢
  rw [hsame'] at hk hscopes ⊢
  exact ⟨hscopes, hh.arrays, hh.objects, hh.natives, hh.functionCount, hh.classCount,
    fun i => (hh.functions i).keep hk, fun i => (hh.classes i).keep hk⟩

theorem define (hh : h.Paired T T' n P h') {i i' : ScopeId} (hi : P i i') (name : String) (value : Value) :
    (h.define i name value).Paired T T' n P (h'.define i' name value) :=
  hh.of_scopes (hh.scopes.define hi name value) (.define P h h' i i' name value) rfl rfl

theorem addScope (hh : h.Paired T T' n P h') (names : Bindings) (i i' : ScopeId) :
    (h.addScope ⟨some i, names⟩).Paired T T' n (P.push h h') (h'.addScope ⟨some i', names⟩) :=
  hh.of_scopes (hh.scopes.addScope names i i') (.addScope P h h' _ _) rfl rfl

theorem addFirst (hh : h.Paired T T' n P h') (s : Scope) : (h.addScope s).Paired T T' n P h' :=
  hh.of_scopes (hh.scopes.addFirst s) (.addFirst P h h' s) rfl rfl

/-- A change of arrays and objects. -/
theorem of_data (hh : h.Paired T T' n P h') (harrays : h₁'.arrays = h₁.arrays) (hobjects : h₁'.objects = h₁.objects)
    (hsame : h₁ = { h with arrays := h₁.arrays, objects := h₁.objects })
    (hsame' : h₁' = { h' with arrays := h₁'.arrays, objects := h₁'.objects }) : h₁.Paired T T' n P h₁' := by
  have hk : PairsKept P P h h₁ h' h₁' := .of_scopes_eq P (by rw [hsame]) (by rw [hsame'])
  have hscopes : ScopesPaired n P h₁ h₁' := hh.scopes.of_eq (by rw [hsame]) (by rw [hsame'])
  rw [hsame] at hk hscopes harrays hobjects ⊢
  rw [hsame'] at hk hscopes harrays hobjects ⊢
  exact ⟨hscopes, harrays, hobjects, hh.natives, hh.functionCount, hh.classCount,
    fun i => (hh.functions i).keep hk, fun i => (hh.classes i).keep hk⟩

theorem addArray (hh : h.Paired T T' n P h') (items : List Value) : (h.addArray items).Paired T T' n P (h'.addArray items) := by
  refine hh.of_data ?_ hh.objects rfl rfl
  show h'.arrays.push items = h.arrays.push items
  rw [hh.arrays]

theorem addObject (hh : h.Paired T T' n P h') (o : Object) : (h.addObject o).Paired T T' n P (h'.addObject o) := by
  refine hh.of_data hh.arrays ?_ rfl rfl
  show h'.objects.push o = h.objects.push o
  rw [hh.objects]

theorem setField (hh : h.Paired T T' n P h') (i : ObjectId) (name : String) (value : Value) :
    (h.setField i name value).Paired T T' n P (h'.setField i name value) := by
  refine hh.of_data hh.arrays ?_ rfl rfl
  unfold Heap.setField
  rw [hh.objects]

theorem addFunction (hh : h.Paired T T' n P h') {f f' : Function} (hf : f.Paired T T' n P h h' [] f') :
    (h.addFunction f).Paired T T' n P (h'.addFunction f') := by
  have hk : PairsKept P P h (h.addFunction f) h' (h'.addFunction f') := .of_scopes_eq P rfl rfl
  refine ⟨hh.scopes.of_eq rfl rfl, hh.arrays, hh.objects, hh.natives, ?_, hh.classCount, fun i => ?_,
    fun i => (hh.classes i).keep hk⟩
  · simp [Heap.addFunction, hh.functionCount]
  · rw [Heap.function_addFunction, Heap.function_addFunction, hh.functionCount]
    split
    · exact hf.keep hk
    · exact (hh.functions i).keep hk

theorem addClass (hh : h.Paired T T' n P h') {c c' : Class} (hc : c.Paired T T' n P h h' c') :
    (h.addClass c).Paired T T' n P (h'.addClass c') := by
  have hk : PairsKept P P h (h.addClass c) h' (h'.addClass c') := .of_scopes_eq P rfl rfl
  refine ⟨hh.scopes.of_eq rfl rfl, hh.arrays, hh.objects, hh.natives, hh.functionCount, ?_,
    fun i => (hh.functions i).keep hk, fun i => ?_⟩
  · simp [Heap.addClass, hh.classCount]
  · rw [Heap.cls_addClass, Heap.cls_addClass, hh.classCount]
    split
    · exact hc.keep hk
    · exact (hh.classes i).keep hk

end Heap.Paired

/-! ## Bounded heaps -/

/-- Scopes and functions are nested in scopes of the heap, and the ids of the functions are below a bound. -/
structure Heap.Bounded (h : Heap) (bound : NodeId) : Prop where
  inhabited : globalScope < h.scopes.size
  scopes : ∀ i j, (h.scope i).enclosing = some j → j < h.scopes.size
  functions : ∀ i, (h.function i).closure < h.scopes.size ∧ ∀ r ∈ (h.function i).decl.references, r.id < bound
  methods : ∀ i, ∀ entry ∈ (h.cls i).methods,
    entry.2.closure < h.scopes.size ∧ ∀ r ∈ entry.2.decl.references, r.id < bound

/-- Every scope of the heap is paired with itself. -/
def Pairing.refl (h : Heap) : Pairing := fun i i' => i = i' ∧ i < h.scopes.size

/-- **A heap is paired with itself**, before either side has added anything, under tables that agree below the
bound. -/
theorem Heap.Bounded.paired {h : Heap} {bound : NodeId} (hh : h.Bounded bound) {T T' : DistanceTable}
    (htable : ∀ id < bound, T'.distance? id = T.distance? id) : h.Paired T T' h.scopes.size (.refl h) h where
  scopes := {
    start := fun _ hi => ⟨rfl, hi⟩
    enclosing := fun _ _ => rfl
    closed := fun i _ j hj => hh.scopes i j hj
    names := by
      rintro i _ ⟨rfl, -⟩
      rfl
    first := by
      rintro i _ _ ⟨rfl, -⟩ ⟨rfl, -⟩
      rfl
    second := by
      rintro i _ _ ⟨rfl, -⟩ ⟨rfl, -⟩
      rfl
    bounded := by
      rintro i _ ⟨rfl, hi⟩
      exact ⟨hi, hi⟩
    inhabited := hh.inhabited }
  arrays := rfl
  objects := rfl
  natives := rfl
  functionCount := rfl
  classCount := rfl
  functions := by
    intro i
    obtain ⟨hclosure, hids⟩ := hh.functions i
    exact ⟨rfl, id, [], nofun, ⟨rfl, hclosure⟩,
      FunctionDecl.shifted_id nofun fun r hr => htable r.id (hids r hr), (FunctionDecl.mapIds_id _).symm⟩
  classes := by
    intro i
    refine ⟨rfl, fun name => ?_⟩
    cases hmethod : (h.cls i).method? name with
    | none => exact .none
    | some f =>
        obtain ⟨before, after, heq, -⟩ := List.lookup_eq_some_iff.mp hmethod
        have hmem : (name, f) ∈ (h.cls i).methods := by
          rw [heq]
          exact List.mem_append_right _ List.mem_cons_self
        obtain ⟨hclosure, hids⟩ := hh.methods i _ hmem
        exact .some ⟨rfl, id, [], nofun, ⟨rfl, hclosure⟩,
          FunctionDecl.shifted_id (Shift.forall_both nofun) fun r hr => htable r.id (hids r hr),
          (FunctionDecl.mapIds_id _).symm⟩

end Scriptlet
