import Scriptlet.Proofs.Alike.Runs
import Scriptlet.Proofs.ForLoops.Heaps

/-!
# Runs with shifted scopes

A tree and the same tree with other ids do the same, from paired heaps, if the distances of the one are those of the
other, shifted by the scopes that only the first side has.  One of the two runs is the measure: if its steps are used
up nothing is said, and the other may have more steps.

* `Side` — which run is the measure; `Comparison` — this, the tables of distances, and the number of
  scopes at the start.
* `Machine.Paired C P σ m m'` — paired machines; the current scopes face each other with the shift `σ`.
* `Halt.Same` — the same end.
* `Matches` — results of two runs that match; `Exec.Paired C σ x x'` — actions with matching results.

Principal result: `stepsPaired` — every task of a shifted tree.
-/

set_option autoImplicit false

namespace Scriptlet

/-- The run that is the measure. -/
inductive Side where
  | first
  | second

/-- The measure has no more steps than the other run; and if it is the second, the first run has `extra` more. -/
def Side.Within (extra : Nat) : Side → Nat → Nat → Prop
  | .first, steps, steps' => steps ≤ steps'
  | .second, steps, steps' => steps' + extra ≤ steps

/-- What two runs have in common. -/
structure Comparison where
  side : Side
  /-- The distances of the first run. -/
  table : DistanceTable
  /-- The distances of the second run. -/
  table' : DistanceTable
  /-- The number of scopes at the start. -/
  size : Nat

/-! ## Machines -/

/-- Paired machines. -/
structure Machine.Paired (C : Comparison) (P : Pairing) (σ : Shift) (m m' : Machine) : Prop where
  heap : m.heap.Paired C.table C.table' C.size P m'.heap
  facing : Facing C.size P m.heap m'.heap σ m.current m'.current
  table : m.table = C.table
  table' : m'.table = C.table'
  sink : m'.sink = m.sink
  clock : m'.clock = m.clock
  ticks : m'.ticks = m.ticks

section Machines

variable {C : Comparison} {P : Pairing} {σ : Shift} {m m' : Machine}

/-- Another current scope. -/
theorem Machine.Paired.enter (h : m.Paired C P σ m') {τ : Shift} {scope scope' : ScopeId}
    (hscope : Facing C.size P m.heap m'.heap τ scope scope') :
    Machine.Paired C P τ { m with current := scope } { m' with current := scope' } :=
  ⟨h.heap, hscope, h.table, h.table', h.sink, h.clock, h.ticks⟩

end Machines

/-! ## Results -/

/-- The same fault; a distance counts the scopes of its own side. -/
inductive Fault.Same : Fault → Fault → Prop
  | missingName (name : String) (d d' : Nat) : Fault.Same (.missingName name d) (.missingName name d')
  | missingScope : Fault.Same .missingScope .missingScope

/-- The same end of a run that had enough steps. -/
inductive Halt.Same : Halt → Halt → Prop
  | error (e : RunError) : Halt.Same (.error e) (.error e)
  | fault {f f' : Fault} : f.Same f' → Halt.Same (.fault f) (.fault f')

/-- The machines that two runs have come to, from the machines `m` and `m'`: paired, and in the same scopes again. -/
structure Reached (C : Comparison) (P P₁ : Pairing) (σ : Shift) (m m' m₁ m₁' : Machine) : Prop where
  paired : m₁.Paired C P₁ σ m₁'
  kept : PairsKept P P₁ m.heap m₁.heap m'.heap m₁'.heap
  current : m₁.current = m.current
  current' : m₁'.current = m'.current

/-- Matching results of two runs that started with the machines `m` and `m'`. -/
inductive Matches {α : Type} (C : Comparison) (P : Pairing) (σ : Shift) (m m' : Machine) :
    EStateM.Result Halt Machine α → EStateM.Result Halt Machine α → Prop
  | ok {P₁ : Pairing} {a : α} {m₁ m₁' : Machine} : Reached C P P₁ σ m m' m₁ m₁' →
      Matches C P σ m m' (.ok a m₁) (.ok a m₁')
  | halted {P₁ : Pairing} {halt halt' : Halt} {m₁ m₁' : Machine} : halt.Same halt' →
      Reached C P P₁ σ m m' m₁ m₁' → Matches C P σ m m' (.error halt m₁) (.error halt' m₁')
  | first {m₁ : Machine} {r' : EStateM.Result Halt Machine α} : C.side = .first →
      Matches C P σ m m' (.error .exhausted m₁) r'
  | second {m₁' : Machine} {r : EStateM.Result Halt Machine α} : C.side = .second →
      Matches C P σ m m' r (.error .exhausted m₁')

/-- Actions with matching results. -/
def Exec.Paired {α : Type} (C : Comparison) (σ : Shift) (x x' : Exec α) : Prop :=
  ∀ (P : Pairing) (m m' : Machine), m.Paired C P σ m' → Matches C P σ m m' (x m) (x' m')

section Reached

variable {C : Comparison} {P P₁ P₂ : Pairing} {σ : Shift} {m m' m₁ m₁' m₂ m₂' : Machine} {α β : Type}

theorem Reached.refl (hm : m.Paired C P σ m') : Reached C P P σ m m' m m' := ⟨hm, .refl _ _ _, rfl, rfl⟩

theorem Reached.trans (h : Reached C P P₁ σ m m' m₁ m₁') (h' : Reached C P₁ P₂ σ m₁ m₁' m₂ m₂') :
    Reached C P P₂ σ m m' m₂ m₂' where
  paired := h'.paired
  kept := h.kept.trans h'.kept
  current := h'.current.trans h.current
  current' := h'.current'.trans h.current'

/-- A change of the heaps. -/
theorem Machine.Paired.reach (hm : m.Paired C P σ m') {h₁ h₁' : Heap} (hheap : h₁.Paired C.table C.table' C.size P₁ h₁')
    (hk : PairsKept P P₁ m.heap h₁ m'.heap h₁') :
    Reached C P P₁ σ m m' { m with heap := h₁ } { m' with heap := h₁' } :=
  ⟨⟨hheap, hm.facing.keep hk, hm.table, hm.table', hm.sink, hm.clock, hm.ticks⟩, hk, rfl, rfl⟩

/-- Runs that started later. -/
theorem Matches.from {r r' : EStateM.Result Halt Machine α} (h : Reached C P P₁ σ m m' m₁ m₁')
    (hr : Matches C P₁ σ m₁ m₁' r r') : Matches C P σ m m' r r' := by
  cases hr with
  | ok h' => exact .ok (h.trans h')
  | halted hhalt h' => exact .halted hhalt (h.trans h')
  | first hside => exact .first hside
  | second hside => exact .second hside

theorem Matches.bind {x x' : Exec α} {k k' : α → Exec β} (hx : Matches C P σ m m' (x m) (x' m'))
    (hk : ∀ {P₁ : Pairing} {m₁ m₁' : Machine} (a : α), Reached C P P₁ σ m m' m₁ m₁' →
      Matches C P₁ σ m₁ m₁' (k a m₁) (k' a m₁')) :
    Matches C P σ m m' ((x >>= k) m) ((x' >>= k') m') := by
  simp only [Bind.bind, EStateM.bind]
  generalize x m = r at hx ⊢
  generalize x' m' = r' at hx ⊢
  cases hx with
  | @ok _ a _ _ h => exact (hk a h).from h
  | halted hhalt h => exact .halted hhalt h
  | first hside => exact .first hside
  | second hside => exact .second hside

theorem Exec.Paired.bind {x x' : Exec α} {k k' : α → Exec β} (hx : Exec.Paired C σ x x')
    (hk : ∀ a, Exec.Paired C σ (k a) (k' a)) : Exec.Paired C σ (x >>= k) (x' >>= k') :=
  fun _ _ _ hm => (hx _ _ _ hm).bind fun a h => hk a _ _ _ h.paired

end Reached

/-! ## Actions -/

namespace Exec

section Actions

variable {C : Comparison} {P : Pairing} {σ : Shift} {m m' : Machine} {α : Type}

theorem Paired.pure (a : α) : Exec.Paired C σ (pure a) (pure a) := fun _ _ _ hm => .ok (.refl hm)

theorem paired_exhausted (hside : C.side = .first) {x : Exec α} : Exec.Paired C σ exhausted x :=
  fun _ _ _ _ => .first hside

theorem exhausted_paired (hside : C.side = .second) {x : Exec α} : Exec.Paired C σ x exhausted :=
  fun _ _ _ _ => .second hside

theorem paired_fail (line : Nat) (fault : ScriptFault) : Exec.Paired C σ (fail (α := α) line fault) (fail line fault) :=
  fun _ _ _ hm => .halted (.error _) (.refl hm)

theorem paired_orFail (line : Nat) (result : Except ScriptFault α) :
    Exec.Paired C σ (orFail line result) (orFail line result) := by
  cases result with
  | ok a => exact .pure a
  | error fault => exact paired_fail line fault

theorem paired_read {q : Heap → α} (hq : ∀ {h h' : Heap}, h.LooksLike h' → q h' = q h) :
    Exec.Paired C σ (read q) (read q) := by
  intro P m m' hm
  unfold read
  rw [hq hm.heap.looksLike]
  exact .ok (.refl hm)

/-- Going on with what is read from the heaps. -/
theorem matches_read {β : Type} {q : Heap → β} {k k' : β → Exec α}
    (h : Matches C P σ m m' (k (q m.heap) m) (k' (q m'.heap) m')) :
    Matches C P σ m m' ((read q >>= k) m) ((read q >>= k') m') := h

theorem paired_setField (i : ObjectId) (name : String) (value : Value) :
    Exec.Paired C σ (change fun h => h.setField i name value) (change fun h => h.setField i name value) := by
  intro P m m' hm
  have hk : PairsKept P P m.heap (m.heap.setField i name value) m'.heap (m'.heap.setField i name value) :=
    .of_scopes_eq P rfl rfl
  exact .ok (hm.reach (hm.heap.setField i name value) hk)

theorem paired_define (hσ : σ.Open) (name : String) (value : Value) :
    Exec.Paired C σ (define name value) (define name value) := by
  intro P m m' hm
  have hcurrent := hm.facing.paired hm.heap.scopes hσ
  have hk := PairsKept.define P m.heap m'.heap m.current m'.current name value
  exact .ok (hm.reach (hm.heap.define hcurrent name value) hk)

/-- Reading a name at distances that lead to paired scopes. -/
theorem matches_readAt (hm : m.Paired C P σ m') {i i' : ScopeId} {d d' : Nat}
    (howner : Option.Rel P (m.heap.ancestor? i d) (m'.heap.ancestor? i' d')) (name : String) :
    Matches C P σ m m' (readAt i d name m) (readAt i' d' name m') := by
  unfold readAt Heap.readAt
  generalize m.heap.ancestor? i d = owner at howner ⊢
  generalize m'.heap.ancestor? i' d' = owner' at howner ⊢
  cases howner with
  | none => exact .halted (.fault .missingScope) (.refl hm)
  | some howner =>
      simp only [hm.heap.scopes.get? howner]
      cases (m.heap.scope _).names.get? name with
      | some value => exact .ok (.refl hm)
      | none => exact .halted (.fault (.missingName name d d')) (.refl hm)

/-- What the tables of the machines say about a reference. -/
theorem refers_distance? (hm : m.Paired C P σ m') {f : NodeId → NodeId} {id : NodeId}
    (hid : σ.Refers C.table C.table' f id) : Option.Rel σ.Leads (m.table.distance? id) (m'.table.distance? (f id)) := by
  rw [hm.table, hm.table']
  exact hid

theorem paired_lookUp {f : NodeId → NodeId} {id : NodeId} (hid : σ.Refers C.table C.table' f id) (name : Ident) :
    Exec.Paired C σ (lookUp id name) (lookUp (f id) name) := by
  intro P m m' hm
  have hid := refers_distance? hm hid
  unfold lookUp
  generalize m.table.distance? id = d? at hid ⊢
  generalize m'.table.distance? (f id) = d'? at hid ⊢
  cases hid with
  | some hd => exact matches_readAt hm (hm.facing.ancestor hm.heap.scopes hd) name.name
  | none =>
      simp only [hm.heap.scopes.search?_global_eq]
      cases m.heap.search? globalScope name.name with
      | some value => exact .ok (.refl hm)
      | none => exact .halted (.error _) (.refl hm)

theorem paired_assign {f : NodeId → NodeId} {id : NodeId} (hid : σ.Refers C.table C.table' f id) (name : Ident)
    (value : Value) : Exec.Paired C σ (assign id name value) (assign (f id) name value) := by
  intro P m m' hm
  have hid := refers_distance? hm hid
  unfold assign
  generalize m.table.distance? id = d? at hid ⊢
  generalize m'.table.distance? (f id) = d'? at hid ⊢
  cases hid with
  | @some d d' hd =>
      have howner := hm.facing.ancestor hm.heap.scopes hd
      dsimp only
      generalize m.heap.ancestor? m.current d = owner at howner ⊢
      generalize m'.heap.ancestor? m'.current d' = owner' at howner ⊢
      cases howner with
      | none => exact .halted (.fault .missingScope) (.refl hm)
      | @some owner owner' howner =>
          have hk := PairsKept.define P m.heap m'.heap owner owner' name.name value
          exact .ok (hm.reach (hm.heap.define howner name.name value) hk)
  | none =>
      have hglobal := hm.heap.scopes.global
      unfold assignFrom
      simp only [ScopesPaired.owner?_global, hm.heap.scopes.names hglobal]
      split
      · rename_i howner
        split at howner
        · cases howner
          have hk := PairsKept.define P m.heap m'.heap globalScope globalScope name.name value
          exact .ok (hm.reach (hm.heap.define hglobal name.name value) hk)
        · cases howner
      · exact .halted (.error _) (.refl hm)

theorem paired_newArray (items : List Value) : Exec.Paired C σ (newArray items) (newArray items) := by
  intro P m m' hm
  have hk : PairsKept P P m.heap (m.heap.addArray items) m'.heap (m'.heap.addArray items) := .of_scopes_eq P rfl rfl
  unfold newArray
  rw [hm.heap.arrays]
  exact .ok (hm.reach (hm.heap.addArray items) hk)

theorem paired_newObject (c : ClassId) : Exec.Paired C σ (newObject c) (newObject c) := by
  intro P m m' hm
  have hk : PairsKept P P m.heap (m.heap.addObject ⟨c, []⟩) m'.heap (m'.heap.addObject ⟨c, []⟩) := .of_scopes_eq P rfl rfl
  unfold newObject
  rw [hm.heap.objects]
  exact .ok (hm.reach (hm.heap.addObject ⟨c, []⟩) hk)

theorem matches_newFunction (hm : m.Paired C P σ m') {f f' : Function}
    (hf : f.Paired C.table C.table' C.size P m.heap m'.heap [] f') :
    Matches C P σ m m' (newFunction f m) (newFunction f' m') := by
  have hk : PairsKept P P m.heap (m.heap.addFunction f) m'.heap (m'.heap.addFunction f') := .of_scopes_eq P rfl rfl
  unfold newFunction
  rw [hm.heap.functionCount]
  exact .ok (hm.reach (hm.heap.addFunction hf) hk)

theorem paired_write (text : String) : Exec.Paired C σ (write text) (write text) := by
  intro P m m' hm
  have hreached : Reached C P P σ m m' { m with sink := m.sink.take text.toUTF8 }
      { m' with sink := m.sink.take text.toUTF8 } :=
    ⟨⟨hm.heap, hm.facing, hm.table, hm.table', rfl, hm.clock, hm.ticks⟩, .refl _ _ _, rfl, rfl⟩
  unfold write
  simp only [hm.sink]
  cases m.sink.hasRoom text.toUTF8.size with
  | true => exact .ok hreached
  | false => exact .halted (.error _) hreached

theorem paired_callNative (id : NativeId) (args : List Value) (line : Nat) :
    Exec.Paired C σ (callNative id args line) (callNative id args line) := by
  intro P m m' hm
  have hreached : Reached C P P σ m m' { m with ticks := m.ticks + 1 } { m' with ticks := m'.ticks + 1 } :=
    ⟨⟨hm.heap, hm.facing, hm.table, hm.table', hm.sink, hm.clock, congrArg (· + 1) hm.ticks⟩, .refl _ _ _, rfl, rfl⟩
  have hresult : (m'.heap.native id).run (m'.clock m'.ticks) args = (m.heap.native id).run (m.clock m.ticks) args := by
    rw [hm.heap.looksLike.native, hm.clock, hm.ticks]
  unfold callNative
  simp only [hresult]
  cases (m.heap.native id).run (m.clock m.ticks) args with
  | ok value => exact .ok hreached
  | error text => exact .halted (.error _) hreached

/-- Running in other scopes. -/
theorem matches_inScope (hm : m.Paired C P σ m') {τ : Shift} {scope scope' : ScopeId}
    (hscope : Facing C.size P m.heap m'.heap τ scope scope') {x x' : Exec α} (hx : Exec.Paired C τ x x') :
    Matches C P σ m m' (inScope scope x m) (inScope scope' x' m') := by
  have hr := hx _ _ _ (hm.enter hscope)
  unfold inScope
  simp only
  generalize x { m with current := scope } = r at hr ⊢
  generalize x' { m' with current := scope' } = r' at hr ⊢
  cases hr with
  | ok h => exact .ok ⟨h.paired.enter (hm.facing.keep h.kept), h.kept, rfl, rfl⟩
  | halted hhalt h => exact .halted hhalt ⟨h.paired.enter (hm.facing.keep h.kept), h.kept, rfl, rfl⟩
  | first hside => exact .first hside
  | second hside => exact .second hside

/-- Allocating scopes inside facing ones. -/
theorem matches_newScope (hm : m.Paired C P σ m') {τ : Shift} {i i' : ScopeId}
    (hi : Facing C.size P m.heap m'.heap τ i i') (names : Bindings) {k k' : ScopeId → Exec α}
    (hk : ∀ {P₁ : Pairing} {m₁ m₁' : Machine} (scope scope' : ScopeId), Reached C P P₁ σ m m' m₁ m₁' →
      Facing C.size P₁ m₁.heap m₁'.heap (true :: τ) scope scope' →
      Matches C P₁ σ m₁ m₁' (k scope m₁) (k' scope' m₁')) :
    Matches C P σ m m' ((newScope i names >>= k) m) ((newScope i' names >>= k') m') := by
  have hreached := hm.reach (hm.heap.addScope names i i') (.addScope P _ _ _ _)
  exact (hk m.heap.scopes.size m'.heap.scopes.size hreached (hi.push names names)).from hreached

/-- Running in new scopes inside the current ones. -/
theorem paired_block {x x' : Exec α} (hx : Exec.Paired C (true :: σ) x x') :
    Exec.Paired C σ (currentScope >>= fun current => newScope current [] >>= fun scope => inScope scope x)
      (currentScope >>= fun current => newScope current [] >>= fun scope => inScope scope x') := by
  intro P m m' hm
  have hcurrent : ∀ (k : ScopeId → Exec α) (m : Machine), (currentScope >>= k) m = k m.current m :=
    fun _ _ => rfl
  rw [hcurrent, hcurrent]
  exact matches_newScope hm hm.facing [] fun scope scope' h hscope => matches_inScope h.paired hscope hx

/-- Running in a new scope on the first side only. -/
theorem paired_blockFirst {x x' : Exec α} (hx : Exec.Paired C (false :: σ) x x') :
    Exec.Paired C σ (currentScope >>= fun current => newScope current [] >>= fun scope => inScope scope x) x' := by
  intro P m m' hm
  have hadd := PairsKept.addFirst P m.heap m'.heap ⟨some m.current, []⟩
  have henter : Machine.Paired C P (false :: σ)
      { m with heap := m.heap.addScope ⟨some m.current, []⟩, current := m.heap.scopes.size } m' :=
    ⟨hm.heap.addFirst _, hm.facing.pushFirst [], hm.table, hm.table', hm.sink, hm.clock, hm.ticks⟩
  -- Afterwards the first run is back in its scope, and the second has never left its own.
  have hback : ∀ {P₁ : Pairing} {m₁ m₁' : Machine}, Reached C P P₁ (false :: σ)
      { m with heap := m.heap.addScope ⟨some m.current, []⟩, current := m.heap.scopes.size } m' m₁ m₁' →
      Reached C P P₁ σ m m' { m₁ with current := m.current } m₁' := by
    intro P₁ m₁ m₁' h
    have hkept := hadd.trans h.kept
    have hfacing := hm.facing.keep hkept
    rw [← h.current'] at hfacing
    exact ⟨h.paired.enter hfacing, hkept, rfl, h.current'⟩
  have hr := hx _ _ _ henter
  show Matches C P σ m m' (inScope m.heap.scopes.size x { m with heap := m.heap.addScope ⟨some m.current, []⟩ }) (x' m')
  unfold inScope
  simp only
  generalize x { m with heap := m.heap.addScope ⟨some m.current, []⟩, current := m.heap.scopes.size } = r at hr ⊢
  generalize x' m' = r' at hr ⊢
  cases hr with
  | ok h => exact .ok (hback h)
  | halted hhalt h => exact .halted hhalt (hback h)
  | first hside => exact .first hside
  | second hside => exact .second hside

/-- Binding a method to an object. -/
theorem matches_bindMethod (hm : m.Paired C P σ m') {f f' : Function}
    (hf : f.Paired C.table C.table' C.size P m.heap m'.heap [true] f') (object : ObjectId) {k k' : Function → Exec α}
    (hk : ∀ {P₁ : Pairing} {m₁ m₁' : Machine} {g g' : Function}, m₁.Paired C P₁ σ m₁' →
      g.Paired C.table C.table' C.size P₁ m₁.heap m₁'.heap [] g' → Matches C P₁ σ m₁ m₁' (k g m₁) (k' g' m₁')) :
    Matches C P σ m m' ((bindMethod f object >>= k) m) ((bindMethod f' object >>= k') m') := by
  obtain ⟨hinitializer, g, τ, hopen, hfacing, hdecl, heq⟩ := hf
  have hbind : ∀ (f : Function) (k : Function → Exec α) (m : Machine), (bindMethod f object >>= k) m =
      (newScope f.closure [(thisName, .object object)] >>= fun scope => k { f with closure := scope }) m :=
    fun _ _ _ => rfl
  rw [hbind, hbind]
  refine matches_newScope hm hfacing _ fun scope scope' h hscope => ?_
  exact hk h.paired ⟨hinitializer, g, true :: τ, Shift.open_both τ, hscope, hdecl, heq⟩

theorem paired_property (object : Value) (name : Ident) :
    Exec.Paired C σ (property object name) (property object name) := by
  unfold property
  cases object with
  | object id =>
      refine (paired_read fun hh => ?_).bind fun field => ?_
      · rw [hh.object]
      · cases field with
        | some value => exact .pure value
        | none =>
            intro P m m' hm
            have hmethod := (hm.heap.classes (m.heap.object id).cls).method name.name
            refine matches_read ?_
            simp only [hm.heap.looksLike.object]
            generalize (m.heap.cls (m.heap.object id).cls).method? name.name = f? at hmethod ⊢
            generalize (m'.heap.cls (m.heap.object id).cls).method? name.name = f'? at hmethod ⊢
            cases hmethod with
            | none => exact paired_fail _ _ _ _ _ hm
            | some hf => exact matches_bindMethod hm hf id fun hm₁ hg => matches_newFunction hm₁ hg
  | null | bool | number | string | array | function | native | classRef => exact paired_fail _ _

theorem paired_declareFunction (hσ : σ.Open) {f : NodeId → NodeId} {d : FunctionDecl} (hd : d.Shifted C.table C.table' f σ) :
    Exec.Paired C σ (declareFunction d) (declareFunction (d.mapIds f)) := by
  intro P m m' hm
  have hf : Function.Paired C.table C.table' C.size P m.heap m'.heap [] ⟨d, m.current, false⟩
      ⟨d.mapIds f, m'.current, false⟩ := ⟨rfl, f, σ, hσ, hm.facing, hd, rfl⟩
  have hname : (d.mapIds f).name.name = d.name.name := by rw [FunctionDecl.name_mapIds]
  unfold declareFunction
  rw [hname]
  exact (matches_newFunction hm hf).bind fun value h => paired_define hσ _ value _ _ _ h.paired

theorem paired_declareClass (hσ : σ.Open) {f : NodeId → NodeId} (name : Ident) {ds : List FunctionDecl}
    (hds : FunctionDecl.ShiftedAll C.table C.table' f (true :: σ) ds) :
    Exec.Paired C σ (declareClass name ds) (declareClass name (FunctionDecl.mapIdsAll f ds)) := by
  obtain ⟨name, line⟩ := name
  intro P m m' hm
  have hcurrent := hm.facing.paired hm.heap.scopes hσ
  obtain ⟨hlt, hlt'⟩ := hm.heap.scopes.bounded hcurrent
  rw [declareClass_eq hlt, declareClass_eq hlt', hm.heap.classCount]
  generalize Value.classRef m.heap.classes.size = value
  -- The name is bound, the class is made, and the name is assigned.
  have hbound := hm.heap.define hcurrent name .null
  have hk₁ := PairsKept.define P m.heap m'.heap m.current m'.current name .null
  have hcls : Class.Paired C.table C.table' C.size P (m.heap.define m.current name .null)
      (m'.heap.define m'.current name .null) ⟨name, methodsOf m.current ds⟩
      ⟨name, methodsOf m'.current (FunctionDecl.mapIdsAll f ds)⟩ :=
    ⟨rfl, fun key => methodsOf_paired hσ (hm.facing.keep hk₁) f key hds⟩
  have hmade := hbound.addClass hcls
  have hk₂ : PairsKept P P _ ((m.heap.define m.current name .null).addClass ⟨name, methodsOf m.current ds⟩) _
      ((m'.heap.define m'.current name .null).addClass ⟨name, methodsOf m'.current (FunctionDecl.mapIdsAll f ds)⟩) :=
    hk₁.trans (.of_scopes_eq P rfl rfl)
  have hassigned := hmade.define hcurrent name value
  have hk := hk₂.trans (.define P _ _ m.current m'.current name value)
  exact .ok (hm.reach hassigned hk)

end Actions

end Exec

/-! ## Tasks -/

open Exec

/-- All tasks of shifted trees, with the given numbers of steps. -/
structure StepsPaired (C : Comparison) (steps steps' : Nat) : Prop where
  eval : ∀ {σ : Shift} {f : NodeId → NodeId} {e : Expr}, σ.RefersAll C.table C.table' f e.references →
    Exec.Paired C σ (evaluate steps e) (evaluate steps' (e.mapIds f))
  evalAll : ∀ {σ : Shift} {f : NodeId → NodeId} {es : List Expr}, σ.RefersAll C.table C.table' f (Expr.referencesAll es) →
    Exec.Paired C σ (evaluateAll steps es) (evaluateAll steps' (Expr.mapIdsAll f es))
  call : ∀ {σ : Shift} (callee : Value) (args : List Value) (line : Nat),
    Exec.Paired C σ (call steps callee args line) (call steps' callee args line)
  callWith : ∀ {σ : Shift} (callee : Value) (args : List Value) (line : Nat),
    Exec.Paired C σ (callWith steps callee args line) (callWith steps' callee args line)
  invoke : ∀ {σ : Shift} {P : Pairing} {m m' : Machine} {g g' : Function} (args : List Value), m.Paired C P σ m' →
    g.Paired C.table C.table' C.size P m.heap m'.heap [] g' →
    Matches C P σ m m' (invoke steps g args m) (invoke steps' g' args m')
  exec : ∀ {σ : Shift} {f : NodeId → NodeId} {s : Stmt}, s.Shifted C.table C.table' f σ →
    Exec.Paired C σ (execute steps s) (execute steps' (s.mapIds f))
  execAll : ∀ {σ : Shift} {f : NodeId → NodeId} {ss : List Stmt}, Stmt.ShiftedAll C.table C.table' f σ ss →
    Exec.Paired C σ (executeAll steps ss) (executeAll steps' (Stmt.mapIdsAll f ss))
  loop : ∀ {σ : Shift} {f : NodeId → NodeId} {test : Expr} {body : Stmt}, σ.RefersAll C.table C.table' f test.references →
    body.Shifted C.table C.table' f σ → Exec.Paired C σ (loop steps test body) (loop steps' (test.mapIds f) (body.mapIds f))

section Succ

variable {C : Comparison} {σ : Shift} {f : NodeId → NodeId} {steps steps' : Nat} (ih : StepsPaired C steps steps')
include ih

theorem evaluate_succ_paired {e : Expr} (he : σ.RefersAll C.table C.table' f e.references) :
    Exec.Paired C σ (evaluate (steps + 1) e) (evaluate (steps' + 1) (e.mapIds f)) := by
  unfold evaluate
  cases e with
  | lit value => exact .pure _
  | group inner => exact ih.eval (e := inner) he
  | unary op operand => exact (ih.eval (e := operand) he).bind fun a => paired_orFail _ _
  | binary op left right =>
      refine (ih.eval he.left).bind fun a => (ih.eval he.right).bind fun b => ?_
      exact (paired_read fun hh => hh.applyBinary _ _ _ _).bind fun result => paired_orFail _ result
  | logical op left right =>
      exact (ih.eval he.left).bind fun a => (ih.eval he.right).bind fun b => paired_orFail _ _
  | ternary test whenTrue whenFalse =>
      refine (ih.eval he.left.left).bind fun a => ?_
      split
      · exact ih.eval he.left.right
      · exact ih.eval he.right
  | var id name => exact paired_lookUp he.head name
  | assign id name value =>
      exact (ih.eval he.tail).bind fun a => (paired_assign he.head name a).bind fun _ => .pure a
  | update id name op operand =>
      refine (ih.eval he.tail).bind fun a => (paired_lookUp he.head name).bind fun old => ?_
      refine (paired_read fun hh => hh.applyBinary _ _ _ _).bind fun result => ?_
      exact (paired_orFail _ result).bind fun new => (paired_assign he.head name new).bind fun _ => .pure _
  | this id line => exact paired_lookUp he.head ⟨thisName, line⟩
  | array items =>
      have hitems : σ.RefersAll C.table C.table' f (Expr.referencesAll items) := he
      exact (ih.evalAll hitems).bind fun values => paired_newArray values
  | index target line position =>
      refine (ih.eval he.right).bind fun b => (ih.eval he.left).bind fun a => ?_
      exact (paired_read fun hh => hh.applyIndex _ _).bind fun result => paired_orFail _ result
  | call callee line args =>
      exact (ih.eval he.left).bind fun callee => (ih.evalAll he.right).bind fun args => ih.call callee args line
  | get object name => exact (ih.eval (e := object) he).bind fun a => paired_property a name
  | set object name value =>
      refine (ih.eval he.left).bind fun a => ?_
      cases a with
      | object i =>
          exact (ih.eval he.right).bind fun b => (paired_setField i name.name b).bind fun _ => .pure b
      | null | bool | number | string | array | function | native | classRef => exact paired_fail _ _

theorem evaluateAll_succ_paired {es : List Expr} (hes : σ.RefersAll C.table C.table' f (Expr.referencesAll es)) :
    Exec.Paired C σ (evaluateAll (steps + 1) es) (evaluateAll (steps' + 1) (Expr.mapIdsAll f es)) := by
  cases es with
  | nil => exact .pure _
  | cons e es =>
      unfold evaluateAll
      exact (ih.eval hes.left).bind fun a => (ih.evalAll hes.right).bind fun values => .pure _

theorem call_succ_paired (callee : Value) (args : List Value) (line : Nat) :
    Exec.Paired C σ (call (steps + 1) callee args line) (call (steps' + 1) callee args line) := by
  unfold call
  refine (paired_read fun hh => hh.arity? callee).bind fun arity => ?_
  cases arity with
  | none => exact paired_fail _ _
  | some arity =>
      dsimp only
      split
      · exact paired_fail _ _
      · exact ih.callWith callee args line

theorem callWith_succ_paired (callee : Value) (args : List Value) (line : Nat) :
    Exec.Paired C σ (callWith (steps + 1) callee args line) (callWith (steps' + 1) callee args line) := by
  unfold callWith
  cases callee with
  | native i => exact paired_callNative i args line
  | function i => exact fun P m m' hm => ih.invoke args hm (hm.heap.functions i)
  | classRef i =>
      refine (paired_newObject i).bind fun object P m m' hm => ?_
      have hmethod := (hm.heap.classes i).method constructorName
      refine matches_read ?_
      generalize (m.heap.cls i).method? constructorName = f? at hmethod ⊢
      generalize (m'.heap.cls i).method? constructorName = f'? at hmethod ⊢
      cases hmethod with
      | none => exact Exec.Paired.pure _ _ _ _ hm
      | some hf =>
          refine matches_bindMethod hm hf object fun hm₁ hg => ?_
          exact (ih.invoke args hm₁ hg).bind fun _ h => Exec.Paired.pure _ _ _ _ h.paired
  | null | bool | number | string | array | object => exact paired_fail _ _

theorem invoke_succ_paired {P : Pairing} {m m' : Machine} {g g' : Function} (args : List Value)
    (hm : m.Paired C P σ m') (hg : g.Paired C.table C.table' C.size P m.heap m'.heap [] g') :
    Matches C P σ m m' (invoke (steps + 1) g args m) (invoke (steps' + 1) g' args m') := by
  obtain ⟨decl, closure, initializer⟩ := g
  obtain ⟨decl', closure', initializer'⟩ := g'
  obtain ⟨hinitializer, f, τ, hopen, hfacing, hdecl, heq⟩ := hg
  dsimp only at hinitializer hfacing hdecl heq
  subst hinitializer heq
  unfold invoke
  simp only [FunctionDecl.params_mapIds, FunctionDecl.body_mapIds]
  refine matches_newScope hm hfacing _ fun scope scope' h hscope => ?_
  refine (matches_inScope h.paired hscope (ih.execAll hdecl.body)).bind fun flow h₁ => ?_
  cases initializer' with
  | true =>
      -- The closure is the scope of `this`.
      have hthis := (hfacing.keep (h.trans h₁).kept).paired h₁.paired.heap.scopes hopen
      refine matches_readAt h₁.paired ?_ thisName
      exact .some hthis
  | false =>
      cases flow with
      | returned value => exact Exec.Paired.pure _ _ _ _ h₁.paired
      | normal => exact Exec.Paired.pure _ _ _ _ h₁.paired

theorem execute_succ_paired {s : Stmt} (hs : s.Shifted C.table C.table' f σ) :
    Exec.Paired C σ (execute (steps + 1) s) (execute (steps' + 1) (s.mapIds f)) := by
  unfold execute
  cases s with
  | expr e => exact (ih.eval (e := e) hs).bind fun _ => .pure _
  | print e =>
      refine (ih.eval (e := e) hs).bind fun a => (paired_read fun hh => hh.text a).bind fun text => ?_
      exact (paired_write _).bind fun _ => .pure _
  | var name init =>
      cases init with
      | none => exact (paired_define hs.1 name.name .null).bind fun _ => .pure _
      | some init => exact (ih.eval (e := init) hs.2).bind fun a => (paired_define hs.1 name.name a).bind fun _ => .pure _
  | block body => exact paired_block (ih.execAll hs)
  | ifElse test whenTrue whenFalse =>
      cases whenFalse with
      | none =>
          refine (ih.eval hs.1).bind fun a => ?_
          dsimp only
          split
          · exact ih.exec hs.2
          · exact .pure _
      | some whenFalse =>
          refine (ih.eval hs.1).bind fun a => ?_
          dsimp only
          split
          · exact ih.exec hs.2.1
          · exact ih.exec hs.2.2
  | whileLoop test body => exact ih.loop hs.1 hs.2
  | function decl => exact (paired_declareFunction hs.1 hs.2).bind fun _ => .pure _
  | classDecl name methods => exact (paired_declareClass hs.1 name hs.2).bind fun _ => .pure _
  | ret line value =>
      cases value with
      | none => exact .pure _
      | some value => exact (ih.eval (e := value) hs).bind fun a => .pure _

theorem executeAll_succ_paired {ss : List Stmt} (hss : Stmt.ShiftedAll C.table C.table' f σ ss) :
    Exec.Paired C σ (executeAll (steps + 1) ss) (executeAll (steps' + 1) (Stmt.mapIdsAll f ss)) := by
  cases ss with
  | nil => exact .pure _
  | cons s ss =>
      unfold executeAll
      refine (ih.exec hss.1).bind fun flow => ?_
      cases flow with
      | normal => exact ih.execAll hss.2
      | returned value => exact .pure _

theorem loop_succ_paired {test : Expr} {body : Stmt} (htest : σ.RefersAll C.table C.table' f test.references)
    (hbody : body.Shifted C.table C.table' f σ) :
    Exec.Paired C σ (loop (steps + 1) test body) (loop (steps' + 1) (test.mapIds f) (body.mapIds f)) := by
  unfold loop
  refine (ih.eval htest).bind fun holds => ?_
  split
  · refine (ih.exec hbody).bind fun flow => ?_
    cases flow with
    | normal => exact ih.loop htest hbody
    | returned value => exact .pure _
  · exact .pure _

end Succ

theorem StepsPaired.succ {C : Comparison} {steps steps' : Nat} (ih : StepsPaired C steps steps') :
    StepsPaired C (steps + 1) (steps' + 1) :=
  ⟨evaluate_succ_paired ih, evaluateAll_succ_paired ih, call_succ_paired ih, callWith_succ_paired ih,
    invoke_succ_paired ih, execute_succ_paired ih, executeAll_succ_paired ih, loop_succ_paired ih⟩

/-- The measure has no steps, and it is the first run. -/
theorem stepsPaired_zero {C : Comparison} (hside : C.side = .first) (steps' : Nat) : StepsPaired C 0 steps' := by
  constructor
  case invoke => exact fun _ _ _ => .first hside
  all_goals intros; exact paired_exhausted hside

/-- The measure has no steps, and it is the second run. -/
theorem zero_stepsPaired {C : Comparison} (hside : C.side = .second) (steps : Nat) : StepsPaired C steps 0 := by
  constructor
  case invoke => exact fun _ _ _ => .second hside
  all_goals intros; exact exhausted_paired hside

/-- **Shifted trees do the same**, as far as the steps of the measure go. -/
theorem stepsPaired {C : Comparison} {steps steps' : Nat} (hwithin : C.side.Within 0 steps steps') :
    StepsPaired C steps steps' := by
  induction steps generalizing steps' with
  | zero =>
      cases hside : C.side with
      | first => exact stepsPaired_zero hside steps'
      | second =>
          rw [hside] at hwithin
          obtain rfl : steps' = 0 := Nat.le_zero.mp hwithin
          exact zero_stepsPaired hside 0
  | succ steps ih =>
      cases steps' with
      | zero =>
          cases hside : C.side with
          | first =>
              rw [hside] at hwithin
              exact absurd hwithin (Nat.not_succ_le_zero steps)
          | second => exact zero_stepsPaired hside (steps + 1)
      | succ steps' =>
          refine (ih ?_).succ
          cases hside : C.side with
          | first | second =>
              rw [hside] at hwithin
              exact Nat.le_of_succ_le_succ hwithin

end Scriptlet
