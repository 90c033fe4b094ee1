import Scriptlet.Proofs.Heap.Scopes
import Scriptlet.Run.Evaluate

/-!
# Regimes of evaluation

What evaluation does to a machine is made of a few readings and a few changes.  A `Regime` says what is watched while a
script runs: a condition on the machine, which values it may hold and which scopes it may use, and how the machine may
change.  A regime is lawful if readings yield values and scopes that are allowed, and changes made with such values
and scopes are allowed as well.

* `Regime`, `Regime.Lawful` — a regime and its laws, one for each reading and each change.
* `Regime.Moves R m m'` — the machine came from `m` to `m'` as the regime allows, and is in the same scope again.
* `Regime.Keeps R Q x m` — the action `x` moves the machine, and `Q` holds of its result if it ends well.
* `Regime.Governs R steps` — all tasks of the evaluator keep the regime, with the given number of steps.
* `Regime.watching step` — the regime that watches changes only.

Principal results: `Regime.Lawful.governs` — a lawful regime governs evaluation, for any number of steps;
`Regime.Lawful.top` — and the statements of a program; `Regime.watching_lawful` — what makes a relation between machines
a lawful regime.
-/

set_option autoImplicit false

namespace Scriptlet

/-! ## Plain values -/

/-- Values that refer to nothing. -/
def Value.IsPlain : Value → Prop
  | .null | .bool _ | .number _ | .string _ => True
  | _ => False

section Operators

variable {a b v : Value}

theorem isPlain_applyUnary {op : Token} (h : applyUnary op a = .ok v) : v.IsPlain := by
  unfold applyUnary at h
  split at h
  · split at h
    · cases h; trivial
    · cases h
  · cases h; trivial
  · cases h

theorem isPlain_applyPlus {h : Heap} {lexeme : String} (hv : applyPlus h lexeme a b = .ok v) :
    v.IsPlain := by
  unfold applyPlus at hv
  split at hv <;> cases hv <;> trivial

theorem isPlain_applyNumeric {kind : TokenKind} {lexeme : String} {x y : Float}
    (hv : applyNumeric kind lexeme x y = .ok v) : v.IsPlain := by
  unfold applyNumeric at hv
  split at hv
  case h_3 | h_4 =>
    split at hv
    · cases hv
    · cases hv; trivial
  all_goals cases hv <;> trivial

theorem isPlain_applyBinary {h : Heap} {kind : TokenKind} {lexeme : String}
    (hv : applyBinary h kind lexeme a b = .ok v) : v.IsPlain := by
  unfold applyBinary at hv
  split at hv
  · exact isPlain_applyPlus hv
  · cases hv; trivial
  · cases hv; trivial
  · split at hv
    · exact isPlain_applyNumeric hv
    · cases hv

theorem isPlain_applyLogical {op : Token} (h : applyLogical op a b = .ok v) : v.IsPlain := by
  unfold applyLogical at h
  split at h <;> cases h <;> trivial

theorem isPlain_ofLiteral (l : Literal) : (Value.ofLiteral l).IsPlain := by
  cases l <;> trivial

/-- What an index yields is an element of an array. -/
theorem exists_array_of_applyIndex {h : Heap} (hv : applyIndex h a b = .ok v) :
    ∃ id, a = .array id ∧ v ∈ h.array id := by
  unfold applyIndex at hv
  split at hv
  · split at hv
    · rename_i id
      unfold elementAt at hv
      split at hv
      · cases hv
      · split at hv
        · cases hv
        · split at hv
          · cases hv
          · split at hv
            · rename_i hget
              cases hv
              exact ⟨id, rfl, List.mem_of_getElem? hget⟩
            · cases hv
    · cases hv
  · cases hv

end Operators

/-! ## Regimes -/

/-- What is watched while a script runs. -/
structure Regime where
  inv : Machine → Prop
  /-- The values that may be held. -/
  value : Machine → Value → Prop
  /-- The scopes that may be used. -/
  scope : Machine → ScopeId → Prop
  /-- How the machine may change. -/
  step : Machine → Machine → Prop

namespace Regime

/-- An allowed change. -/
structure Alters (R : Regime) (m m' : Machine) : Prop where
  inv : R.inv m'
  step : R.step m m'

/-- An allowed change, after which the machine is in the same scope as before. -/
structure Moves (R : Regime) (m m' : Machine) : Prop extends R.Alters m m' where
  current : m'.current = m.current

/-- The laws of a regime. -/
structure Lawful (R : Regime) : Prop where
  refl : ∀ m, R.step m m
  trans : ∀ {m m₁ m₂}, R.step m m₁ → R.step m₁ m₂ → R.step m m₂
  /-- A value that may be held may be held from then on. -/
  value_step : ∀ {m m' v}, R.step m m' → R.value m v → R.value m' v
  scope_step : ∀ {m m' i}, R.step m m' → R.scope m i → R.scope m' i
  -- Readings.
  plain : ∀ {m v}, v.IsPlain → R.value m v
  global : ∀ {m}, R.inv m → R.scope m globalScope
  enclosing : ∀ {m i j}, R.inv m → R.scope m i → (m.heap.scope i).enclosing = some j → R.scope m j
  bound : ∀ {m i v} {name : String}, R.inv m → R.scope m i →
    (m.heap.scope i).names.get? name = some v → R.value m v
  closure : ∀ {m id}, R.inv m → R.value m (.function id) → R.scope m (m.heap.function id).closure
  method : ∀ {m id} {name : String} {f}, R.inv m → R.value m (.classRef id) →
    (m.heap.cls id).method? name = some f → R.scope m f.closure
  element : ∀ {m id v}, R.inv m → R.value m (.array id) → v ∈ m.heap.array id → R.value m v
  cls : ∀ {m id}, R.inv m → R.value m (.object id) → R.value m (.classRef (m.heap.object id).cls)
  field : ∀ {m id v} {name : String}, R.inv m → R.value m (.object id) →
    (m.heap.object id).fields.get? name = some v → R.value m v
  native : ∀ {m id now args v}, R.inv m → (m.heap.native id).run now args = .ok v → R.value m v
  -- Changes.
  switch : ∀ {m} i, R.inv m → R.Alters m { m with current := i }
  take : ∀ {m} bytes, R.inv m → R.Alters m { m with sink := m.sink.take bytes }
  tick : ∀ {m}, R.inv m → R.Alters m { m with ticks := m.ticks + 1 }
  define : ∀ {m i v} name, R.inv m → R.scope m i → R.value m v →
    R.Alters m { m with heap := m.heap.define i name v }
  setField : ∀ {m id v} name, R.inv m → R.value m (.object id) → R.value m v →
    R.Alters m { m with heap := m.heap.setField id name v }
  addScope : ∀ {m i names}, R.inv m → R.scope m i → (∀ entry ∈ names, R.value m entry.2) →
    R.Alters m { m with heap := m.heap.addScope ⟨some i, names⟩ } ∧
      R.scope { m with heap := m.heap.addScope ⟨some i, names⟩ } m.heap.scopes.size
  addArray : ∀ {m items}, R.inv m → (∀ v ∈ items, R.value m v) →
    R.Alters m { m with heap := m.heap.addArray items } ∧
      R.value { m with heap := m.heap.addArray items } (.array m.heap.arrays.size)
  addFunction : ∀ {m f}, R.inv m → R.scope m f.closure →
    R.Alters m { m with heap := m.heap.addFunction f } ∧
      R.value { m with heap := m.heap.addFunction f } (.function m.heap.functions.size)
  addClass : ∀ {m c}, R.inv m → (∀ entry ∈ c.methods, R.scope m entry.2.closure) →
    R.Alters m { m with heap := m.heap.addClass c } ∧
      R.value { m with heap := m.heap.addClass c } (.classRef m.heap.classes.size)
  addObject : ∀ {m c}, R.inv m → R.value m (.classRef c) →
    R.Alters m { m with heap := m.heap.addObject ⟨c, []⟩ } ∧
      R.value { m with heap := m.heap.addObject ⟨c, []⟩ } (.object m.heap.objects.size)

/-- The action moves the machine, and its result is as told. -/
def Keeps {α : Type} (R : Regime) (Q : α → Machine → Prop) (x : Exec α) (m : Machine) : Prop :=
  match x m with
  | .ok a m' => R.Moves m m' ∧ Q a m'
  | .error _ m' => R.Moves m m'

/-- The values of a list may be held. -/
def values (R : Regime) (m : Machine) (vs : List Value) : Prop := ∀ v ∈ vs, R.value m v

/-- A value that is returned may be held. -/
def flow (R : Regime) (m : Machine) : Flow → Prop
  | .normal => True
  | .returned v => R.value m v

/-! ## Rules -/

section Rules

variable {α β : Type} {R : Regime} {m m₁ m₂ : Machine} {Q : α → Machine → Prop} {x : Exec α}
  {f : α → Exec β}

theorem Moves.refl (hR : R.Lawful) (h : R.inv m) : R.Moves m m := ⟨⟨h, hR.refl m⟩, rfl⟩

theorem Moves.trans (hR : R.Lawful) (h : R.Moves m m₁) (h' : R.Moves m₁ m₂) : R.Moves m m₂ :=
  ⟨⟨h'.inv, hR.trans h.step h'.step⟩, h'.current.trans h.current⟩

/-- The current scope may still be used. -/
theorem Moves.scope (hR : R.Lawful) (h : R.Moves m m₁) (hs : R.scope m m.current) :
    R.scope m₁ m₁.current :=
  h.current ▸ hR.scope_step h.step hs

theorem Moves.values (hR : R.Lawful) {vs : List Value} (h : R.Moves m m₁) (hvs : R.values m vs) :
    R.values m₁ vs :=
  fun v hv => hR.value_step h.step (hvs v hv)

theorem Keeps.bind {Q' : β → Machine → Prop} (hR : R.Lawful) (hx : R.Keeps Q x m)
    (hf : ∀ a m', R.Moves m m' → Q a m' → R.Keeps Q' (f a) m') : R.Keeps Q' (x >>= f) m := by
  unfold Keeps at hx ⊢
  simp only [Bind.bind, EStateM.bind]
  cases hr : x m with
  | ok a m' =>
      rw [hr] at hx
      have h := hf a m' hx.1 hx.2
      unfold Keeps at h
      simp only
      split at h
      · exact ⟨hx.1.trans hR h.1, h.2⟩
      · exact hx.1.trans hR h
  | error halt m' =>
      rw [hr] at hx
      exact hx

theorem keeps_pure {a : α} (hR : R.Lawful) (hm : R.inv m) (h : Q a m) : R.Keeps Q (pure a) m :=
  ⟨.refl hR hm, h⟩

theorem keeps_exhausted (hR : R.Lawful) (hm : R.inv m) : R.Keeps Q (Exec.exhausted (α := α)) m :=
  Moves.refl hR hm

theorem keeps_fail {line : Nat} {fault : ScriptFault} (hR : R.Lawful) (hm : R.inv m) :
    R.Keeps Q (Exec.fail (α := α) line fault) m :=
  Moves.refl hR hm

theorem keeps_orFail {line : Nat} {result : Except ScriptFault α} (hR : R.Lawful) (hm : R.inv m)
    (h : ∀ a, result = .ok a → Q a m) : R.Keeps Q (Exec.orFail line result) m := by
  cases result with
  | ok a => exact keeps_pure hR hm (h a rfl)
  | error fault => exact keeps_fail hR hm

theorem keeps_read {g : Heap → α} {Q' : β → Machine → Prop} (h : R.Keeps Q' (f (g m.heap)) m) :
    R.Keeps Q' (Exec.read g >>= f) m :=
  h

theorem keeps_currentScope {g : ScopeId → Exec β} {Q' : β → Machine → Prop}
    (h : R.Keeps Q' (g m.current) m) : R.Keeps Q' (Exec.currentScope >>= g) m :=
  h

/-- An action in another scope. -/
theorem keeps_inScope {scope : ScopeId} (hR : R.Lawful) (hm : R.inv m)
    (hQ : ∀ a m' i, R.inv m' → Q a m' → Q a { m' with current := i })
    (h : R.Keeps Q x { m with current := scope }) : R.Keeps Q (Exec.inScope scope x) m := by
  have hback : ∀ m', R.Moves { m with current := scope } m' → R.Moves m { m' with current := m.current } := by
    intro m' hk
    have hthere := (hR.switch scope hm).step
    have hhere := hR.switch m.current hk.inv
    exact ⟨⟨hhere.inv, hR.trans hthere (hR.trans hk.step hhere.step)⟩, rfl⟩
  unfold Keeps Exec.inScope at *
  simp only
  cases hr : x { m with current := scope } with
  | ok a m' =>
      rw [hr] at h
      exact ⟨hback m' h.1, hQ a m' m.current h.1.inv h.2⟩
  | error halt m' =>
      rw [hr] at h
      exact hback m' h

theorem Lawful.flow_switch (hR : R.Lawful) (fl : Flow) (m : Machine) (i : ScopeId) (hm : R.inv m)
    (h : R.flow m fl) : R.flow { m with current := i } fl := by
  cases fl with
  | normal => trivial
  | returned v => exact hR.value_step (hR.switch i hm).step h

end Rules

/-! ## Actions on the machine -/

section Actions

variable {R : Regime} {m : Machine}

theorem Lawful.null (hR : R.Lawful) : R.value m .null := hR.plain (v := .null) trivial

/-- Scopes outward from one that may be used may be used. -/
theorem Lawful.ancestor (hR : R.Lawful) (hm : R.inv m) : ∀ {distance : Nat} {i owner : ScopeId},
    R.scope m i → m.heap.ancestor? i distance = some owner → R.scope m owner
  | 0, _, _, hi, ho => by
      cases ho
      exact hi
  | distance + 1, i, owner, hi, ho => by
      unfold Heap.ancestor? at ho
      split at ho
      · rename_i outer houter
        exact Lawful.ancestor hR hm (hR.enclosing hm hi houter) ho
      · cases ho

theorem Lawful.ownerWithin (hR : R.Lawful) (hm : R.inv m) {name : String} :
    ∀ {bound : Nat} {i owner : ScopeId}, R.scope m i → m.heap.ownerWithin name bound i = some owner →
      R.scope m owner
  | 0, _, _, _, ho => by cases ho
  | bound + 1, i, owner, hi, ho => by
      unfold Heap.ownerWithin at ho
      split at ho
      · cases ho
        exact hi
      · split at ho
        · rename_i outer houter
          exact Lawful.ownerWithin hR hm (hR.enclosing hm hi houter) ho
        · cases ho

/-- The owner of a name may be used. -/
theorem Lawful.owner (hR : R.Lawful) (hm : R.inv m) {i owner : ScopeId} {name : String}
    (hi : R.scope m i) (ho : m.heap.owner? i name = some owner) : R.scope m owner :=
  hR.ownerWithin hm hi ho

theorem keeps_readAt (hR : R.Lawful) (hm : R.inv m) {i : ScopeId} (hi : R.scope m i) (distance : Nat)
    (name : String) : R.Keeps (fun a m' => R.value m' a) (Exec.readAt i distance name) m := by
  unfold Keeps Exec.readAt Heap.readAt
  cases ho : m.heap.ancestor? i distance with
  | none => exact Moves.refl hR hm
  | some owner =>
      simp only
      cases hget : (m.heap.scope owner).names.get? name with
      | none => exact Moves.refl hR hm
      | some v => exact ⟨.refl hR hm, hR.bound hm (hR.ancestor hm hi ho) hget⟩

theorem keeps_lookUp (hR : R.Lawful) (hm : R.inv m) (hs : R.scope m m.current) (id : NodeId)
    (name : Ident) : R.Keeps (fun a m' => R.value m' a) (Exec.lookUp id name) m := by
  have hat := fun distance => keeps_readAt hR hm hs distance name.name
  unfold Keeps Exec.lookUp at *
  cases m.table.distance? id with
  | some distance => exact hat distance
  | none =>
      simp only [Heap.search?]
      cases ho : m.heap.owner? globalScope name.name with
      | none => exact Moves.refl hR hm
      | some owner =>
          simp only [Option.bind]
          cases hget : (m.heap.scope owner).names.get? name.name with
          | none => exact Moves.refl hR hm
          | some v => exact ⟨.refl hR hm, hR.bound hm (hR.owner hm (hR.global hm) ho) hget⟩

theorem keeps_define (hR : R.Lawful) (hm : R.inv m) (hs : R.scope m m.current) (name : String) {v : Value}
    (hv : R.value m v) : R.Keeps (fun _ _ => True) (Exec.define name v) m :=
  ⟨⟨hR.define name hm hs hv, rfl⟩, trivial⟩

theorem keeps_assignFrom (hR : R.Lawful) (hm : R.inv m) {i : ScopeId} (hi : R.scope m i) (name : Ident)
    {v : Value} (hv : R.value m v) : R.Keeps (fun _ _ => True) (Exec.assignFrom i name v) m := by
  unfold Keeps Exec.assignFrom
  cases ho : m.heap.owner? i name.name with
  | none => exact Moves.refl hR hm
  | some owner => exact ⟨⟨hR.define name.name hm (hR.owner hm hi ho) hv, rfl⟩, trivial⟩

theorem keeps_assign (hR : R.Lawful) (hm : R.inv m) (hs : R.scope m m.current) (id : NodeId)
    (name : Ident) {v : Value} (hv : R.value m v) :
    R.Keeps (fun _ _ => True) (Exec.assign id name v) m := by
  have hfrom := keeps_assignFrom hR hm (hR.global hm) name hv
  unfold Keeps Exec.assign at *
  cases m.table.distance? id with
  | none => exact hfrom
  | some distance =>
      simp only
      cases ho : m.heap.ancestor? m.current distance with
      | none => exact Moves.refl hR hm
      | some owner => exact ⟨⟨hR.define name.name hm (hR.ancestor hm hs ho) hv, rfl⟩, trivial⟩

theorem keeps_newScope (hR : R.Lawful) (hm : R.inv m) {i : ScopeId} (hi : R.scope m i) {names : Bindings}
    (hnames : ∀ entry ∈ names, R.value m entry.2) :
    R.Keeps (fun i m' => R.scope m' i) (Exec.newScope i names) m :=
  have h := hR.addScope hm hi hnames
  ⟨⟨h.1, rfl⟩, h.2⟩

theorem keeps_newArray (hR : R.Lawful) (hm : R.inv m) {items : List Value} (hitems : R.values m items) :
    R.Keeps (fun a m' => R.value m' a) (Exec.newArray items) m :=
  have h := hR.addArray hm hitems
  ⟨⟨h.1, rfl⟩, h.2⟩

theorem keeps_newFunction (hR : R.Lawful) (hm : R.inv m) {f : Function} (hf : R.scope m f.closure) :
    R.Keeps (fun a m' => R.value m' a) (Exec.newFunction f) m :=
  have h := hR.addFunction hm hf
  ⟨⟨h.1, rfl⟩, h.2⟩

theorem keeps_newClass (hR : R.Lawful) (hm : R.inv m) {c : Class}
    (hc : ∀ entry ∈ c.methods, R.scope m entry.2.closure) :
    R.Keeps (fun a m' => R.value m' a) (Exec.newClass c) m :=
  have h := hR.addClass hm hc
  ⟨⟨h.1, rfl⟩, h.2⟩

theorem keeps_newObject (hR : R.Lawful) (hm : R.inv m) {c : ClassId} (hc : R.value m (.classRef c)) :
    R.Keeps (fun id m' => R.value m' (.object id)) (Exec.newObject c) m :=
  have h := hR.addObject hm hc
  ⟨⟨h.1, rfl⟩, h.2⟩

theorem keeps_setField (hR : R.Lawful) (hm : R.inv m) {id : ObjectId} (hid : R.value m (.object id))
    (name : String) {v : Value} (hv : R.value m v) :
    R.Keeps (fun _ _ => True) (Exec.change fun h => h.setField id name v) m :=
  ⟨⟨hR.setField name hm hid hv, rfl⟩, trivial⟩

theorem keeps_bindMethod (hR : R.Lawful) (hm : R.inv m) {method : Function} {object : ObjectId}
    (hf : R.scope m method.closure) (hobject : R.value m (.object object)) :
    R.Keeps (fun bound m' => R.scope m' bound.closure) (Exec.bindMethod method object) m := by
  refine (keeps_newScope hR hm hf ?_).bind hR fun scope m' hk hscope => keeps_pure hR hk.inv hscope
  intro entry hentry
  rw [List.mem_singleton.mp hentry]
  exact hobject

theorem keeps_write (hR : R.Lawful) (hm : R.inv m) (text : String) :
    R.Keeps (fun _ _ => True) (Exec.write text) m := by
  have hmoves : R.Moves m { m with sink := m.sink.take text.toUTF8 } := ⟨hR.take _ hm, rfl⟩
  unfold Keeps Exec.write
  simp only
  cases m.sink.hasRoom text.toUTF8.size with
  | true => exact ⟨hmoves, trivial⟩
  | false => exact hmoves

theorem keeps_callNative (hR : R.Lawful) (hm : R.inv m) (id : NativeId) (args : List Value) (line : Nat) :
    R.Keeps (fun a m' => R.value m' a) (Exec.callNative id args line) m := by
  have hmoves : R.Moves m { m with ticks := m.ticks + 1 } := ⟨hR.tick hm, rfl⟩
  unfold Keeps Exec.callNative
  simp only
  cases hr : (m.heap.native id).run (m.clock m.ticks) args with
  | error text => exact hmoves
  | ok v => exact ⟨hmoves, hR.value_step hmoves.step (hR.native hm hr)⟩

theorem keeps_property (hR : R.Lawful) (hm : R.inv m) {object : Value} (hobject : R.value m object)
    (name : Ident) : R.Keeps (fun a m' => R.value m' a) (Exec.property object name) m := by
  unfold Exec.property
  cases object with
  | object id =>
      apply keeps_read
      cases hfield : (m.heap.object id).fields.get? name.name with
      | some v => exact keeps_pure hR hm (hR.field hm hobject hfield)
      | none =>
          apply keeps_read
          cases hmethod : (m.heap.cls (m.heap.object id).cls).method? name.name with
          | none => exact keeps_fail hR hm
          | some method =>
              have hclosure := hR.method hm (hR.cls hm hobject) hmethod
              refine (keeps_bindMethod hR hm hclosure hobject).bind hR fun bound m' hk hbound => ?_
              exact keeps_newFunction hR hk.inv hbound
  | null | bool | number | string | array | function | native | classRef => exact keeps_fail hR hm

theorem keeps_declareFunction (hR : R.Lawful) (hm : R.inv m) (hs : R.scope m m.current)
    (decl : FunctionDecl) : R.Keeps (fun _ _ => True) (Exec.declareFunction decl) m := by
  have hnew := keeps_newFunction (f := ⟨decl, m.current, false⟩) hR hm hs
  apply keeps_currentScope
  exact hnew.bind hR fun v m' hk hv => keeps_define hR hk.inv (hk.scope hR hs) _ hv

theorem keeps_declareClass (hR : R.Lawful) (hm : R.inv m) (hs : R.scope m m.current) (name : Ident)
    (methods : List FunctionDecl) :
    R.Keeps (fun _ _ => True) (Exec.declareClass name methods) m := by
  refine (keeps_define hR hm hs name.name hR.null).bind hR fun _ m₁ hk₁ _ => ?_
  have hs₁ := hk₁.scope hR hs
  have hmethods : ∀ entry ∈ methodsOf m₁.current methods, R.scope m₁ entry.2.closure := by
    intro entry hentry
    obtain ⟨decl, -, rfl⟩ := List.mem_map.mp hentry
    exact hs₁
  have hnew := keeps_newClass (c := ⟨name.name, methodsOf m₁.current methods⟩) hR hk₁.inv hmethods
  refine keeps_currentScope (hnew.bind hR fun v m₂ hk₂ hv => ?_)
  have hscope := hR.scope_step hk₂.step hs₁
  exact keeps_assignFrom hR hk₂.inv hscope name hv

end Actions

/-! ## Tasks -/

/-- All tasks of the evaluator keep the regime. -/
structure Governs (R : Regime) (steps : Nat) : Prop where
  eval : ∀ {e m}, R.inv m → R.scope m m.current →
    R.Keeps (fun a m' => R.value m' a) (evaluate steps e) m
  evalAll : ∀ {es m}, R.inv m → R.scope m m.current →
    R.Keeps (fun vs m' => R.values m' vs) (evaluateAll steps es) m
  call : ∀ {callee args line m}, R.inv m → R.value m callee → R.values m args →
    R.Keeps (fun a m' => R.value m' a) (call steps callee args line) m
  callWith : ∀ {callee args line m}, R.inv m → R.value m callee → R.values m args →
    R.Keeps (fun a m' => R.value m' a) (callWith steps callee args line) m
  invoke : ∀ {f args m}, R.inv m → R.scope m f.closure → R.values m args →
    R.Keeps (fun a m' => R.value m' a) (invoke steps f args) m
  exec : ∀ {s m}, R.inv m → R.scope m m.current →
    R.Keeps (fun flow m' => R.flow m' flow) (execute steps s) m
  execAll : ∀ {ss m}, R.inv m → R.scope m m.current →
    R.Keeps (fun flow m' => R.flow m' flow) (executeAll steps ss) m
  loop : ∀ {test body m}, R.inv m → R.scope m m.current →
    R.Keeps (fun flow m' => R.flow m' flow) (loop steps test body) m

section Succ

variable {R : Regime} {steps : Nat} {m : Machine}

theorem evaluate_succ_keeps (ih : R.Governs steps) (hR : R.Lawful) {e : Expr} (hm : R.inv m)
    (hs : R.scope m m.current) : R.Keeps (fun a m' => R.value m' a) (evaluate (steps + 1) e) m := by
  unfold evaluate
  cases e with
  | lit value => exact keeps_pure hR hm (hR.plain (isPlain_ofLiteral value))
  | group inner => exact ih.eval hm hs
  | unary op operand =>
      refine (ih.eval hm hs).bind hR fun a m₁ hk _ => ?_
      exact keeps_orFail hR hk.inv fun v hv => hR.plain (isPlain_applyUnary hv)
  | binary op left right =>
      refine (ih.eval hm hs).bind hR fun a m₁ hk₁ _ => ?_
      refine (ih.eval hk₁.inv (hk₁.scope hR hs)).bind hR fun b m₂ hk₂ _ => keeps_read ?_
      exact keeps_orFail hR hk₂.inv fun v hv => hR.plain (isPlain_applyBinary hv)
  | logical op left right =>
      refine (ih.eval hm hs).bind hR fun a m₁ hk₁ _ => ?_
      refine (ih.eval hk₁.inv (hk₁.scope hR hs)).bind hR fun b m₂ hk₂ _ => ?_
      exact keeps_orFail hR hk₂.inv fun v hv => hR.plain (isPlain_applyLogical hv)
  | ternary test whenTrue whenFalse =>
      refine (ih.eval hm hs).bind hR fun a m₁ hk _ => ?_
      split
      · exact ih.eval hk.inv (hk.scope hR hs)
      · exact ih.eval hk.inv (hk.scope hR hs)
  | var id name => exact keeps_lookUp hR hm hs id name
  | this id line => exact keeps_lookUp hR hm hs id _
  | assign id name value =>
      refine (ih.eval hm hs).bind hR fun a m₁ hk₁ ha => ?_
      refine (keeps_assign hR hk₁.inv (hk₁.scope hR hs) id name ha).bind hR fun _ m₂ hk₂ _ => ?_
      exact keeps_pure hR hk₂.inv (hR.value_step hk₂.step ha)
  | update id name op operand =>
      refine (ih.eval hm hs).bind hR fun a m₁ hk₁ _ => ?_
      have hs₁ := hk₁.scope hR hs
      refine (keeps_lookUp hR hk₁.inv hs₁ id name).bind hR fun old m₂ hk₂ _ => keeps_read ?_
      have hplain : R.Keeps (fun new _ => new.IsPlain) (Exec.orFail op.line
          (applyBinary m₂.heap (updateKind op.kind) op.lexeme old a)) m₂ :=
        keeps_orFail hR hk₂.inv fun _ hv => isPlain_applyBinary hv
      refine hplain.bind hR fun new m₃ hk₃ hnew => ?_
      have hs₃ := hk₃.scope hR (hk₂.scope hR hs₁)
      refine (keeps_assign hR hk₃.inv hs₃ id name (hR.plain hnew)).bind hR fun _ m₄ hk₄ _ => ?_
      exact keeps_pure hR hk₄.inv hR.null
  | array items =>
      refine (ih.evalAll hm hs).bind hR fun values m₁ hk hvalues => ?_
      exact keeps_newArray hR hk.inv hvalues
  | index target line position =>
      refine (ih.eval hm hs).bind hR fun a m₁ hk₁ _ => ?_
      refine (ih.eval hk₁.inv (hk₁.scope hR hs)).bind hR fun b m₂ hk₂ hb => keeps_read ?_
      refine keeps_orFail hR hk₂.inv fun v hv => ?_
      obtain ⟨id, rfl, hmem⟩ := exists_array_of_applyIndex hv
      exact hR.element hk₂.inv hb hmem
  | call callee line args =>
      refine (ih.eval hm hs).bind hR fun f m₁ hk₁ hf => ?_
      refine (ih.evalAll hk₁.inv (hk₁.scope hR hs)).bind hR fun values m₂ hk₂ hvalues => ?_
      exact ih.call hk₂.inv (hR.value_step hk₂.step hf) hvalues
  | get object name =>
      refine (ih.eval hm hs).bind hR fun a m₁ hk ha => ?_
      exact keeps_property hR hk.inv ha name
  | set object name value =>
      refine (ih.eval hm hs).bind hR fun a m₁ hk₁ ha => ?_
      cases a with
      | object id =>
          refine (ih.eval hk₁.inv (hk₁.scope hR hs)).bind hR fun b m₂ hk₂ hb => ?_
          have hid := hR.value_step hk₂.step ha
          refine (keeps_setField hR hk₂.inv hid name.name hb).bind hR fun _ m₃ hk₃ _ => ?_
          exact keeps_pure hR hk₃.inv (hR.value_step hk₃.step hb)
      | null | bool | number | string | array | function | native | classRef =>
          exact keeps_fail hR hk₁.inv

theorem evaluateAll_succ_keeps (ih : R.Governs steps) (hR : R.Lawful) {es : List Expr}
    (hm : R.inv m) (hs : R.scope m m.current) :
    R.Keeps (fun vs m' => R.values m' vs) (evaluateAll (steps + 1) es) m := by
  cases es with
  | nil => exact keeps_pure hR hm nofun
  | cons e es =>
      unfold evaluateAll
      refine (ih.eval hm hs).bind hR fun a m₁ hk₁ ha => ?_
      refine (ih.evalAll hk₁.inv (hk₁.scope hR hs)).bind hR fun values m₂ hk₂ hvalues => ?_
      refine keeps_pure hR hk₂.inv fun v hv => ?_
      rcases List.mem_cons.mp hv with rfl | hv
      · exact hR.value_step hk₂.step ha
      · exact hvalues v hv

theorem call_succ_keeps (ih : R.Governs steps) (hR : R.Lawful) {callee : Value} {args : List Value}
    {line : Nat} (hm : R.inv m) (hcallee : R.value m callee) (hargs : R.values m args) :
    R.Keeps (fun a m' => R.value m' a) (call (steps + 1) callee args line) m := by
  unfold call
  apply keeps_read
  cases m.heap.arity? callee with
  | none => exact keeps_fail hR hm
  | some arity =>
      simp only
      split
      · exact keeps_fail hR hm
      · exact ih.callWith hm hcallee hargs

theorem callWith_succ_keeps (ih : R.Governs steps) (hR : R.Lawful) {callee : Value}
    {args : List Value} {line : Nat} (hm : R.inv m) (hcallee : R.value m callee)
    (hargs : R.values m args) :
    R.Keeps (fun a m' => R.value m' a) (callWith (steps + 1) callee args line) m := by
  unfold callWith
  cases callee with
  | native id => exact keeps_callNative hR hm id args line
  | function id => exact keeps_read (ih.invoke hm (hR.closure hm hcallee) hargs)
  | classRef id =>
      refine (keeps_newObject hR hm hcallee).bind hR fun object m₁ hk₁ hobject => keeps_read ?_
      split
      · rename_i method hmethod
        have hclosure := hR.method hk₁.inv (hR.value_step hk₁.step hcallee) hmethod
        refine (keeps_bindMethod hR hk₁.inv hclosure hobject).bind hR fun bound m₂ hk₂ hbound => ?_
        have hargs₂ := hk₂.values hR (hk₁.values hR hargs)
        refine (ih.invoke hk₂.inv hbound hargs₂).bind hR fun _ m₃ hk₃ _ => ?_
        exact keeps_pure hR hk₃.inv (hR.value_step hk₃.step (hR.value_step hk₂.step hobject))
      · exact keeps_pure hR hk₁.inv hobject
  | null | bool | number | string | array | object => exact keeps_fail hR hm

theorem invoke_succ_keeps (ih : R.Governs steps) (hR : R.Lawful) {f : Function} {args : List Value}
    (hm : R.inv m) (hf : R.scope m f.closure) (hargs : R.values m args) :
    R.Keeps (fun a m' => R.value m' a) (invoke (steps + 1) f args) m := by
  unfold invoke
  have hnames : ∀ entry ∈ Bindings.ofParameters f.decl.params args, R.value m entry.2 :=
    fun entry hentry => hargs _ (Bindings.mem_ofParameters hentry)
  refine (keeps_newScope hR hm hf hnames).bind hR fun scope m₁ hk₁ hscope => ?_
  have hthere := hR.switch scope hk₁.inv
  have hbody : R.Keeps (fun flow m' => R.flow m' flow) (executeAll steps f.decl.body)
      { m₁ with current := scope } :=
    ih.execAll hthere.inv (hR.scope_step hthere.step hscope)
  refine (keeps_inScope hR hk₁.inv hR.flow_switch hbody).bind hR fun flow m₂ hk₂ hflow => ?_
  split
  · exact keeps_readAt hR hk₂.inv (hR.scope_step hk₂.step (hR.scope_step hk₁.step hf)) 0 thisName
  · cases flow with
    | returned v => exact keeps_pure hR hk₂.inv hflow
    | normal => exact keeps_pure hR hk₂.inv hR.null

theorem execute_succ_keeps (ih : R.Governs steps) (hR : R.Lawful) {s : Stmt} (hm : R.inv m)
    (hs : R.scope m m.current) :
    R.Keeps (fun flow m' => R.flow m' flow) (execute (steps + 1) s) m := by
  unfold execute
  cases s with
  | expr e =>
      refine (ih.eval hm hs).bind hR fun a m₁ hk _ => ?_
      exact keeps_pure hR hk.inv trivial
  | print e =>
      refine (ih.eval hm hs).bind hR fun a m₁ hk₁ _ => keeps_read ?_
      refine (keeps_write hR hk₁.inv _).bind hR fun _ m₂ hk₂ _ => ?_
      exact keeps_pure hR hk₂.inv trivial
  | var name init =>
      cases init with
      | none =>
          refine (keeps_define hR hm hs name.name hR.null).bind hR fun _ m₁ hk _ => ?_
          exact keeps_pure hR hk.inv trivial
      | some init =>
          refine (ih.eval hm hs).bind hR fun a m₁ hk₁ ha => ?_
          refine (keeps_define hR hk₁.inv (hk₁.scope hR hs) name.name ha).bind hR fun _ m₂ hk₂ _ => ?_
          exact keeps_pure hR hk₂.inv trivial
  | block body =>
      have hnew : R.Keeps (fun i m' => R.scope m' i) (Exec.newScope m.current []) m :=
        keeps_newScope hR hm hs nofun
      refine keeps_currentScope (hnew.bind hR fun scope m₁ hk₁ hscope => ?_)
      have hthere := hR.switch scope hk₁.inv
      refine keeps_inScope hR hk₁.inv hR.flow_switch ?_
      exact ih.execAll hthere.inv (hR.scope_step hthere.step hscope)
  | ifElse test whenTrue whenFalse =>
      refine (ih.eval hm hs).bind hR fun a m₁ hk _ => ?_
      split
      · exact ih.exec hk.inv (hk.scope hR hs)
      · cases whenFalse with
        | some whenFalse => exact ih.exec hk.inv (hk.scope hR hs)
        | none => exact keeps_pure hR hk.inv trivial
  | whileLoop test body => exact ih.loop hm hs
  | function decl =>
      refine (keeps_declareFunction hR hm hs decl).bind hR fun _ m₁ hk _ => ?_
      exact keeps_pure hR hk.inv trivial
  | classDecl name methods =>
      refine (keeps_declareClass hR hm hs name methods).bind hR fun _ m₁ hk _ => ?_
      exact keeps_pure hR hk.inv trivial
  | ret line value =>
      cases value with
      | none => exact keeps_pure hR hm hR.null
      | some value =>
          refine (ih.eval hm hs).bind hR fun a m₁ hk ha => ?_
          exact keeps_pure hR hk.inv ha

theorem executeAll_succ_keeps (ih : R.Governs steps) (hR : R.Lawful) {ss : List Stmt}
    (hm : R.inv m) (hs : R.scope m m.current) :
    R.Keeps (fun flow m' => R.flow m' flow) (executeAll (steps + 1) ss) m := by
  cases ss with
  | nil => exact keeps_pure hR hm trivial
  | cons s ss =>
      unfold executeAll
      refine (ih.exec hm hs).bind hR fun flow m₁ hk hflow => ?_
      cases flow with
      | normal => exact ih.execAll hk.inv (hk.scope hR hs)
      | returned v => exact keeps_pure hR hk.inv hflow

theorem loop_succ_keeps (ih : R.Governs steps) (hR : R.Lawful) {test : Expr} {body : Stmt}
    (hm : R.inv m) (hs : R.scope m m.current) :
    R.Keeps (fun flow m' => R.flow m' flow) (loop (steps + 1) test body) m := by
  unfold loop
  refine (ih.eval hm hs).bind hR fun a m₁ hk₁ _ => ?_
  split
  · refine (ih.exec hk₁.inv (hk₁.scope hR hs)).bind hR fun flow m₂ hk₂ hflow => ?_
    cases flow with
    | normal => exact ih.loop hk₂.inv (hk₂.scope hR (hk₁.scope hR hs))
    | returned v => exact keeps_pure hR hk₂.inv hflow
  · exact keeps_pure hR hk₁.inv trivial

end Succ

/-- **A lawful regime governs evaluation, for any number of steps.** -/
theorem Lawful.governs {R : Regime} (hR : R.Lawful) : ∀ steps, R.Governs steps
  | 0 => by
      constructor <;> intros <;> exact keeps_exhausted hR ‹_›
  | steps + 1 =>
      let ih := hR.governs steps
      ⟨evaluate_succ_keeps ih hR, evaluateAll_succ_keeps ih hR, call_succ_keeps ih hR,
        callWith_succ_keeps ih hR, invoke_succ_keeps ih hR, execute_succ_keeps ih hR,
        executeAll_succ_keeps ih hR, loop_succ_keeps ih hR⟩

/-- **A lawful regime governs the statements of a program.** -/
theorem Lawful.top {R : Regime} (hR : R.Lawful) : ∀ (steps : Nat) (p : Program) {m : Machine}, R.inv m →
    R.scope m m.current → R.Keeps (fun _ _ => True) (executeTop steps p) m
  | 0, _, _, hm, _ => keeps_exhausted hR hm
  | _ + 1, [], _, hm, _ => keeps_pure hR hm trivial
  | steps + 1, s :: rest, _, hm, hs => by
      unfold executeTop
      refine ((hR.governs steps).exec hm hs).bind hR fun _ m₁ hk _ => ?_
      exact hR.top steps rest hk.inv (hk.scope hR hs)

/-! ## Changes only -/

/-- The regime that watches changes only; any value and any scope may be used. -/
def watching (step : Machine → Machine → Prop) : Regime :=
  ⟨fun _ => True, fun _ _ => True, fun _ _ => True, step⟩

/-- Such a regime is lawful if it allows another current scope, output, readings of the clock, and every change of the
heap that adds no native function. -/
theorem watching_lawful {step : Machine → Machine → Prop} (hrefl : ∀ m, step m m)
    (htrans : ∀ {m m₁ m₂}, step m m₁ → step m₁ m₂ → step m m₂)
    (hswitch : ∀ m i, step m { m with current := i })
    (htake : ∀ m bytes, step m { m with sink := m.sink.take bytes })
    (htick : ∀ m, step m { m with ticks := m.ticks + 1 })
    (hheap : ∀ (m : Machine) (h : Heap), h.natives = m.heap.natives → step m { m with heap := h }) :
    (watching step).Lawful where
  refl := hrefl
  trans := htrans
  value_step := fun _ _ => trivial
  scope_step := fun _ _ => trivial
  plain := fun _ => trivial
  global := fun _ => trivial
  enclosing := fun _ _ _ => trivial
  bound := fun _ _ _ => trivial
  closure := fun _ _ => trivial
  method := fun _ _ _ => trivial
  element := fun _ _ _ => trivial
  cls := fun _ _ => trivial
  field := fun _ _ _ => trivial
  native := fun _ _ => trivial
  switch := fun i _ => ⟨trivial, hswitch _ i⟩
  take := fun bytes _ => ⟨trivial, htake _ bytes⟩
  tick := fun _ => ⟨trivial, htick _⟩
  define := fun _ _ _ _ => ⟨trivial, hheap _ _ rfl⟩
  setField := fun _ _ _ _ => ⟨trivial, hheap _ _ rfl⟩
  addScope := fun _ _ _ => ⟨⟨trivial, hheap _ _ rfl⟩, trivial⟩
  addArray := fun _ _ => ⟨⟨trivial, hheap _ _ rfl⟩, trivial⟩
  addFunction := fun _ _ => ⟨⟨trivial, hheap _ _ rfl⟩, trivial⟩
  addClass := fun _ _ => ⟨⟨trivial, hheap _ _ rfl⟩, trivial⟩
  addObject := fun _ _ => ⟨⟨trivial, hheap _ _ rfl⟩, trivial⟩

end Regime

end Scriptlet
