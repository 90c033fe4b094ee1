import Scriptlet.Run.Evaluate
import Scriptlet.Proofs.Scoping.Covers

/-!
# Safe actions

What a step of a run may do to a machine whose heap fits a layout.

* `Ready L m` — the heap of the machine fits the layout and its table is that of the layout.
* `Kept L D m m'` — the machine came from `m` to `m'`: scopes have grown, the machine is ready, and the
  names that are new in the global scope satisfy `D`.
* `Safe L D Q x m` — the action `x` keeps the machine, and either ends well with `Q` or stops early in a way
  that breaks no promise of the layout.

Principal results: `Safe.bind` — safe actions compose; `safe_lookUp`, `safe_assign` — a placed reference is
read and assigned safely; `safe_declareFunction`, `safe_declareClass` — declarations are safe and bring the
scopes of the text and of the run forward together.
-/

set_option autoImplicit false

namespace Scriptlet

/-- The machine fits the layout. -/
structure Ready (L : Layout) (m : Machine) : Prop where
  heap : HeapFits L m.heap
  table : m.table = L.table

/-- Whether a name is bound in the global scope. -/
def Machine.bindsGlobal (m : Machine) (name : String) : Bool :=
  (m.heap.scope globalScope).names.binds name

/-- What a task does to the machine; `D` are the names it may add to the global scope. -/
structure Kept (L : Layout) (D : String → Prop) (m m' : Machine) : Prop where
  ready : Ready L m'
  current : m'.current = m.current
  grows : Heap.Grows m.heap m'.heap
  globals : ∀ name, m'.bindsGlobal name = true → m.bindsGlobal name = true ∨ D name

/-- The ways in which a run may stop early: no scope is missing, and under a strict layout no name. -/
def Layout.Allows (L : Layout) : Halt → Prop
  | .fault .missingScope => False
  | .fault (.missingName _ _) => L.strict = false
  | _ => True

/-- The action keeps the machine and stops early only in allowed ways. -/
def Safe {α : Type} (L : Layout) (D : String → Prop) (Q : α → Machine → Prop) (x : Exec α)
    (m : Machine) : Prop :=
  match x m with
  | .ok a m' => Kept L D m m' ∧ Q a m'
  | .error halt m' => Kept L D m m' ∧ L.Allows halt

section Rules

variable {α β : Type} {L : Layout} {D : String → Prop} {m m₁ m₂ : Machine}

theorem Kept.refl (h : Ready L m) : Kept L D m m :=
  ⟨h, rfl, .refl _, fun _ hb => .inl hb⟩

theorem Kept.trans (h : Kept L D m m₁) (h' : Kept L D m₁ m₂) : Kept L D m m₂ where
  ready := h'.ready
  current := h'.current.trans h.current
  grows := h.grows.trans h'.grows
  globals := fun name hb => (h'.globals name hb).elim (h.globals name) .inr

theorem Kept.mono {D' : String → Prop} (h : Kept L D m m₁) (hD : ∀ name, D name → D' name) :
    Kept L D' m m₁ :=
  ⟨h.ready, h.current, h.grows, fun name hb => (h.globals name hb).imp_right (hD name)⟩

/-- The scopes around the current point are still covered. -/
theorem Kept.covers {Γ : ScopeStack} (h : Kept L D m m₁) (hc : Covers L.strict m.heap m.current Γ) :
    Covers L.strict m₁.heap m₁.current Γ :=
  h.current ▸ hc.grow h.grows

variable {Q : α → Machine → Prop} {x : Exec α} {f : α → Exec β}

theorem Safe.mono {Q' : α → Machine → Prop} {D' : String → Prop} (h : Safe L D Q x m)
    (hD : ∀ name, D name → D' name) (hQ : ∀ a m', Kept L D m m' → Q a m' → Q' a m') :
    Safe L D' Q' x m := by
  unfold Safe at *
  split at h
  · exact ⟨h.1.mono hD, hQ _ _ h.1 h.2⟩
  · exact ⟨h.1.mono hD, h.2⟩

/-- More names may be added, and nothing is said about the result. -/
theorem Safe.widen {D' : String → Prop} (h : Safe L D Q x m) (hD : ∀ name, D name → D' name) :
    Safe L D' (fun _ _ => True) x m :=
  h.mono hD fun _ _ _ _ => trivial

theorem Safe.bind {Q' : β → Machine → Prop} (hx : Safe L D Q x m)
    (hf : ∀ a m', x m = .ok a m' → Kept L D m m' → Q a m' → Safe L D Q' (f a) m') :
    Safe L D Q' (x >>= f) m := by
  unfold Safe at hx ⊢
  simp only [Bind.bind, EStateM.bind]
  cases hr : x m with
  | ok a m' =>
      rw [hr] at hx
      have h := hf a m' hr hx.1 hx.2
      unfold Safe at h
      simp only
      split at h
      · exact ⟨hx.1.trans h.1, h.2⟩
      · exact ⟨hx.1.trans h.1, h.2⟩
  | error halt m' =>
      rw [hr] at hx
      exact hx

/-- An action that is known to end well. -/
theorem Safe.step {Q' : β → Machine → Prop} {a : α} (hx : x m = .ok a m₁) (hk : Kept L D m m₁)
    (h : Safe L D Q' (f a) m₁) : Safe L D Q' (x >>= f) m := by
  have hsafe : Safe L D (fun b m' => b = a ∧ m' = m₁) x m := by
    unfold Safe
    rw [hx]
    exact ⟨hk, rfl, rfl⟩
  refine hsafe.bind fun b m' _ _ hb => ?_
  obtain ⟨rfl, rfl⟩ := hb
  exact h

theorem safe_pure {a : α} (hm : Ready L m) (h : Q a m) : Safe L D Q (pure a) m := ⟨.refl hm, h⟩

theorem safe_exhausted (hm : Ready L m) : Safe L D Q (Exec.exhausted (α := α)) m :=
  ⟨.refl hm, trivial⟩

theorem safe_fail {line : Nat} {fault : ScriptFault} (hm : Ready L m) :
    Safe L D Q (Exec.fail (α := α) line fault) m :=
  ⟨.refl hm, trivial⟩

theorem safe_orFail {line : Nat} {result : Except ScriptFault α} (hm : Ready L m)
    (h : ∀ a, Q a m) : Safe L D Q (Exec.orFail line result) m := by
  cases result with
  | ok a => exact safe_pure hm (h a)
  | error fault => exact safe_fail hm

theorem safe_read {g : Heap → α} {Q' : β → Machine → Prop} (h : Safe L D Q' (f (g m.heap)) m) :
    Safe L D Q' (Exec.read g >>= f) m :=
  h

/-- A change to what holds neither scopes nor functions nor classes. -/
theorem kept_of_eq {m' : Machine} (hm : Ready L m) (hcurrent : m'.current = m.current)
    (htable : m'.table = m.table) (hscopes : m'.heap.scopes = m.heap.scopes)
    (hfunctions : m'.heap.functions = m.heap.functions)
    (hclasses : m'.heap.classes = m.heap.classes) : Kept L D m m' where
  ready := ⟨hm.heap.of_eq hscopes hfunctions hclasses, htable.trans hm.table⟩
  current := hcurrent
  grows := .of_scopes_eq hscopes
  globals := by
    intro name hb
    unfold Machine.bindsGlobal Heap.scope at hb ⊢
    rw [hscopes] at hb
    exact .inl hb

theorem safe_newArray {items : List Value} (hm : Ready L m) :
    Safe L D (fun _ _ => True) (Exec.newArray items) m :=
  ⟨kept_of_eq hm rfl rfl rfl rfl rfl, trivial⟩

theorem safe_setField {id : ObjectId} {name : String} {value : Value} (hm : Ready L m) :
    Safe L D (fun _ _ => True) (Exec.change fun h => h.setField id name value) m :=
  ⟨kept_of_eq hm rfl rfl rfl rfl rfl, trivial⟩

theorem safe_write {text : String} (hm : Ready L m) :
    Safe L D (fun _ _ => True) (Exec.write text) m := by
  unfold Safe Exec.write
  simp only
  split
  · rename_i hr
    split at hr <;> cases hr
    exact ⟨kept_of_eq hm rfl rfl rfl rfl rfl, trivial⟩
  · rename_i hr
    split at hr <;> cases hr
    exact ⟨kept_of_eq hm rfl rfl rfl rfl rfl, trivial⟩

theorem safe_callNative {id : NativeId} {args : List Value} {line : Nat} (hm : Ready L m) :
    Safe L D (fun _ _ => True) (Exec.callNative id args line) m := by
  unfold Safe Exec.callNative
  simp only
  split
  · rename_i hr
    split at hr <;> cases hr
    exact ⟨kept_of_eq hm rfl rfl rfl rfl rfl, trivial⟩
  · rename_i hr
    split at hr <;> cases hr
    exact ⟨kept_of_eq hm rfl rfl rfl rfl rfl, trivial⟩

/-! ## Names -/

/-- Binding a name keeps the machine; in the global scope the name is an old one or one of `D`. -/
theorem kept_define {owner : ScopeId} {name : String} (value : Value) (hm : Ready L m)
    (hD : owner = globalScope → m.bindsGlobal name = true ∨ D name) :
    Kept L D m { m with heap := m.heap.define owner name value } where
  ready := ⟨hm.heap.define owner name value, hm.table⟩
  current := rfl
  grows := .define m.heap owner name value
  globals := by
    intro key hb
    unfold Machine.bindsGlobal at hb
    rw [Heap.binds_define] at hb
    by_cases hkey : owner = globalScope ∧ key = name
    · exact hkey.2 ▸ hD hkey.1
    · refine .inl ?_
      unfold Machine.bindsGlobal
      grind

theorem safe_define {name : String} {value : Value} {Q : Unit → Machine → Prop} (hm : Ready L m)
    (hD : m.current = globalScope → D name)
    (h : Q () { m with heap := m.heap.define m.current name value }) :
    Safe L D Q (Exec.define name value) m :=
  ⟨kept_define value hm fun hglobal => .inr (hD hglobal), h⟩

/-- **A placed reference is read safely.** -/
theorem safe_lookUp {Γ : ScopeStack} {id : NodeId} {name : Ident} {access : Access}
    {Q : Value → Machine → Prop} (hm : Ready L m) (hc : Covers L.strict m.heap m.current Γ)
    (hplaced : L.Places Γ ⟨id, name.name, access⟩) (haccess : access ≠ .write) (h : ∀ a, Q a m) :
    Safe L D Q (Exec.lookUp id name) m := by
  unfold Safe Exec.lookUp
  cases hd : m.table.distance? id with
  | none =>
      simp only
      cases m.heap.search? globalScope name.name with
      | none => exact ⟨.refl hm, trivial⟩
      | some value => exact ⟨.refl hm, h value⟩
  | some distance =>
      obtain ⟨scope, hscope, hname⟩ := hplaced.placed distance (hm.table ▸ hd)
      obtain ⟨owner, howner, -, hbinds⟩ := hc.ancestor hscope
      simp only [Exec.readAt, Heap.readAt, howner]
      cases hget : (m.heap.scope owner).names.get? name.name with
      | some value => exact ⟨.refl hm, h value⟩
      | none =>
          -- Under a strict layout the declaration of the name is complete, so the scope binds it.
          refine ⟨.refl hm, Bool.eq_false_iff.mpr fun hstrict => ?_⟩
          have hb := hbinds hstrict name.name (hname hstrict haccess)
          rw [Bindings.binds, hget] at hb
          cases hb

/-- **A placed reference is assigned safely, and no new global name results.** -/
theorem safe_assign {Γ : ScopeStack} {id : NodeId} {name : Ident} {access : Access} {value : Value}
    {Q : Unit → Machine → Prop} (hm : Ready L m) (hc : Covers L.strict m.heap m.current Γ)
    (hplaced : L.Places Γ ⟨id, name.name, access⟩) (h : ∀ a m', Q a m') :
    Safe L D Q (Exec.assign id name value) m := by
  unfold Safe Exec.assign
  cases hd : m.table.distance? id with
  | none =>
      simp only [Exec.assignFrom]
      cases ho : m.heap.owner? globalScope name.name with
      | none => exact ⟨.refl hm, trivial⟩
      | some owner =>
          obtain ⟨rfl, hb⟩ := Heap.owner?_of_root hm.heap.root ho
          exact ⟨kept_define value hm fun _ => .inl hb, h _ _⟩
  | some distance =>
      obtain ⟨scope, hscope, -⟩ := hplaced.placed distance (hm.table ▸ hd)
      obtain ⟨owner, howner, hlocal, -⟩ := hc.ancestor hscope
      simp only [howner]
      exact ⟨kept_define value hm fun hglobal => absurd hglobal hlocal, h _ _⟩

/-- A name is assigned in the scope from which it is searched, if that binds it. -/
theorem safe_reassign {i : ScopeId} {name : Ident} {value : Value} {Q : Unit → Machine → Prop}
    (hm : Ready L m) (hb : (m.heap.scope i).names.binds name.name = true)
    (h : ∀ m', Kept L D m m' → Q () m') : Safe L D Q (Exec.assignFrom i name value) m := by
  have hk : Kept L D m { m with heap := m.heap.define i name.name value } := by
    refine kept_define value hm fun hglobal => .inl ?_
    subst hglobal
    exact hb
  unfold Safe Exec.assignFrom
  rw [Heap.owner?_of_binds hb]
  exact ⟨hk, h _ hk⟩

/-- The instance of an initializer is found in the scope that binds it. -/
theorem safe_readThis {i : ScopeId} {Q : Value → Machine → Prop} (hm : Ready L m)
    (hb : (m.heap.scope i).names.binds thisName = true) (h : ∀ a, Q a m) :
    Safe L D Q (Exec.readAt i 0 thisName) m := by
  unfold Bindings.binds at hb
  obtain ⟨value, hvalue⟩ := Option.isSome_iff_exists.mp hb
  unfold Safe Exec.readAt
  simp only [Heap.readAt, Heap.ancestor?, hvalue]
  exact ⟨.refl hm, h value⟩

/-! ## Allocation -/

theorem kept_newScope {s : Scope} (hm : Ready L m) :
    Kept L D m { m with heap := m.heap.addScope s } where
  ready := ⟨hm.heap.addScope s, hm.table⟩
  current := rfl
  grows := .addScope m.heap s
  globals := by
    intro name hb
    unfold Machine.bindsGlobal at hb ⊢
    rw [Heap.scope_addScope, if_neg (Nat.ne_of_lt hm.heap.inhabited)] at hb
    exact .inl hb

theorem safe_newScope {enclosing : ScopeId} {names : Bindings} {g : ScopeId → Exec β}
    {Q' : β → Machine → Prop} (hm : Ready L m)
    (h : Safe L D Q' (g m.heap.scopes.size)
      { m with heap := m.heap.addScope ⟨some enclosing, names⟩ }) :
    Safe L D Q' (Exec.newScope enclosing names >>= g) m :=
  .step rfl (kept_newScope hm) h

theorem kept_newObject {o : Object} (hm : Ready L m) :
    Kept L D m { m with heap := m.heap.addObject o } :=
  kept_of_eq hm rfl rfl rfl rfl rfl

theorem safe_newObject {c : ClassId} {g : ObjectId → Exec β} {Q' : β → Machine → Prop}
    (hm : Ready L m)
    (h : Safe L D Q' (g m.heap.objects.size) { m with heap := m.heap.addObject ⟨c, []⟩ }) :
    Safe L D Q' (Exec.newObject c >>= g) m :=
  .step rfl (kept_newObject hm) h

theorem safe_newFunction {f : Function} {Q : Value → Machine → Prop} (hm : Ready L m)
    (hf : FunctionFits L m.heap f) (h : ∀ a m', Q a m') : Safe L D Q (Exec.newFunction f) m :=
  ⟨⟨⟨hm.heap.addFunction hf, hm.table⟩, rfl, .addFunction m.heap f, fun _ hb => .inl hb⟩, h _ _⟩

/-- A method bound to an object is a function whose closure has the scope of `this`. -/
theorem safe_bindMethod {method : Function} {object : ObjectId} (hm : Ready L m)
    (hf : MethodFits L m.heap method) :
    Safe L D (fun bound m' => FunctionFits L m'.heap bound ∧ bound.decl = method.decl)
      (Exec.bindMethod method object) m := by
  obtain ⟨Γ, hc, hs⟩ := hf
  refine safe_newScope hm (safe_pure (kept_newScope (D := D) hm).ready
    ⟨⟨⟨_, hc.push hm.heap.inhabited fun _ name hname => ?_, hs⟩, ?_⟩, rfl⟩)
  · rw [Bindings.binds, Bindings.get?_cons]
    by_cases hthis : name = thisName
    · simp [hthis]
    · rw [List.lookup_cons, beq_false_of_ne hthis] at hname
      cases hname
  · intro _
    rw [Heap.scope_addScope, if_pos rfl]
    simp [Bindings.binds, Bindings.get?_cons]

/-- A method that is found fits. -/
theorem Ready.method (hm : Ready L m) {id : ClassId} {name : String} {method : Function}
    (h : (m.heap.cls id).method? name = some method) : MethodFits L m.heap method := by
  unfold Class.method? at h
  obtain ⟨before, after, happ, -⟩ := List.lookup_eq_some_iff.mp h
  exact hm.heap.methods id (name, method) (by simp [happ])

theorem safe_property {object : Value} {name : Ident} (hm : Ready L m) :
    Safe L D (fun _ _ => True) (Exec.property object name) m := by
  unfold Exec.property
  cases object with
  | object id =>
      apply safe_read
      cases (m.heap.object id).fields.get? name.name with
      | some value => exact safe_pure hm trivial
      | none =>
          apply safe_read
          cases hmethod : (m.heap.cls (m.heap.object id).cls).method? name.name with
          | none => exact safe_fail hm
          | some method =>
              refine (safe_bindMethod hm (hm.method hmethod)).bind fun bound m' _ hk hf => ?_
              exact safe_newFunction hk.ready hf.1 fun _ _ => trivial
  | null | bool | number | string | array | function | native | classRef => exact safe_fail hm

/-! ## Scopes -/

/-- An action in another scope; the scope is the same afterwards. -/
theorem safe_inScope {scope : ScopeId} (h : Safe L D (fun _ _ => True) x { m with current := scope }) :
    Safe L D (fun _ _ => True) (Exec.inScope scope x) m := by
  unfold Safe Exec.inScope at *
  simp only
  cases hr : x { m with current := scope } with
  | ok a m' =>
      rw [hr] at h
      exact ⟨⟨⟨h.1.ready.heap, h.1.ready.table⟩, rfl, h.1.grows, h.1.globals⟩, trivial⟩
  | error halt m' =>
      rw [hr] at h
      exact ⟨⟨⟨h.1.ready.heap, h.1.ready.table⟩, rfl, h.1.grows, h.1.globals⟩, h.2⟩

/-! ## Declarations -/

variable {Γ : ScopeStack}

/-- **A function declaration.**  The function fits only once its name is bound: its body sees the name. -/
theorem safe_declareFunction {decl : FunctionDecl} (hm : Ready L m)
    (hc : Covers L.strict m.heap m.current Γ) (hs : decl.Scoped L (Γ.introduce decl.name))
    (hD : m.current = globalScope → D decl.name.name) :
    Safe L D (fun _ m' => Covers L.strict m'.heap m'.current (Γ.introduce decl.name))
      (Exec.declareFunction decl) m := by
  have hk := kept_define (D := D) (.function m.heap.functions.size) hm
    fun hglobal => .inr (hD hglobal)
  have hc' := hc.define hm.heap.inhabited decl.name (.function m.heap.functions.size)
  have hf : FunctionFits L _ ⟨decl, m.current, false⟩ := ⟨⟨_, hc', hs⟩, nofun⟩
  -- The order in which the function is made and its name is bound does not show in the heap.
  refine ⟨hk.trans ⟨⟨hk.ready.heap.addFunction hf, hm.table⟩, rfl, .addFunction _ _, ?_⟩, ?_⟩
  · exact fun _ hb => .inl hb
  · exact hc'.grow (.addFunction _ _)

/-- The methods of a class fit the scope in which the class is declared. -/
theorem methodsOf_fit {h : Heap} {i : ScopeId} {decls : List FunctionDecl} (hc : Covers L.strict h i Γ)
    (hs : FunctionDecl.ScopedAll L ([(thisName, true)] :: Γ) decls) :
    ∀ entry ∈ methodsOf i decls, MethodFits L h entry.2 := by
  intro entry hentry
  obtain ⟨decl, hdecl, rfl⟩ := List.mem_map.mp hentry
  exact ⟨Γ, hc, FunctionDecl.scopedAll_iff.mp hs decl (List.mem_reverse.mp hdecl)⟩

/-- **A class declaration.**  The name is bound before the methods are closed over the scope. -/
theorem safe_declareClass {name : Ident} {methods : List FunctionDecl} (hm : Ready L m)
    (hc : Covers L.strict m.heap m.current Γ)
    (hs : FunctionDecl.ScopedAll L ([(thisName, true)] :: Γ.introduce name) methods)
    (hD : m.current = globalScope → D name.name) :
    Safe L D (fun _ m' => Covers L.strict m'.heap m'.current (Γ.introduce name))
      (Exec.declareClass name methods) m := by
  have hk := kept_define (D := D) .null hm fun hglobal => .inr (hD hglobal)
  have hc₁ := hc.define hm.heap.inhabited name .null
  have hb₁ : ((m.heap.define m.current name.name .null).scope m.current).names.binds name.name = true := by
    rw [Heap.binds_define]
    simp [hc.lt_size hm.heap.inhabited]
  have hclass := hk.ready.heap.addClass
    (c := ⟨name.name, methodsOf m.current methods⟩) (methodsOf_fit hc₁ hs)
  refine .step rfl hk (.step rfl (.refl hk.ready) (.step rfl ?_ (safe_reassign ?_ hb₁ ?_)))
  · exact ⟨⟨hclass, hm.table⟩, rfl, .addClass _ _, fun _ hb => .inl hb⟩
  · exact ⟨hclass, hm.table⟩
  · exact fun _ hk' => hk'.covers (hc₁.grow (.addClass _ _))

end Rules

end Scriptlet
