import Scriptlet.Heap.Scopes

/-!
# Scopes of the heap

How allocation and definition change what is read from the heap, and what they never change.

* `Heap.scope_addScope`, `Heap.scope_define`, … — reading after writing.
* `Heap.Grows h h'` — scopes keep their place in the nesting and the names they bind.

Principal results: `Grows.addScope`, `Grows.define` — the heap only grows; `owner?_of_binds` — a search
starts at its own scope.
-/

set_option autoImplicit false

namespace Scriptlet

namespace Bindings

theorem get?_cons (entry : String × Value) (names : Bindings) (key : String) :
    get? (entry :: names) key = if key = entry.1 then some entry.2 else get? names key := by
  unfold get?
  rw [List.lookup_cons]
  by_cases h : key = entry.1
  · simp [h]
  · rw [if_neg h, show (key == entry.1) = false by simpa using h]

theorem get?_insert (name key : String) (value : Value) (names : Bindings) :
    (insert name value names).get? key = if key = name then some value else names.get? key := by
  induction names with
  | nil => rw [insert, get?_cons]
  | cons entry names ih =>
      obtain ⟨old, v⟩ := entry
      rw [insert]
      by_cases hold : old = name
      · subst hold
        rw [if_pos rfl, get?_cons, get?_cons]
        by_cases h : key = old <;> simp [h]
      · rw [if_neg hold, get?_cons, get?_cons, ih]
        by_cases h : key = old
        · subst h; simp [hold]
        · simp [h]

theorem binds_insert (name key : String) (value : Value) (names : Bindings) :
    (insert name value names).binds key = (decide (key = name) || names.binds key) := by
  unfold binds
  rw [get?_insert]
  by_cases h : key = name <;> simp [h]

theorem binds_foldl_insert (pairs : List (Ident × Value)) (names : Bindings) (name : String) :
    (pairs.foldl (fun names pair => names.insert pair.1.name pair.2) names).binds name =
      (names.binds name || pairs.any fun pair => pair.1.name = name) := by
  induction pairs generalizing names with
  | nil => simp
  | cons pair pairs ih =>
      simp only [List.foldl_cons, List.any_cons]
      rw [ih, binds_insert]
      by_cases h : pair.1.name = name
      · simp [h]
      · simp [h, Ne.symm h]

/-- Every parameter is bound when there are as many arguments. -/
theorem binds_ofParameters {params : List Ident} {args : List Value}
    (hlen : args.length = params.length) {param : Ident} (hparam : param ∈ params) :
    (ofParameters params args).binds param.name = true := by
  unfold ofParameters
  rw [binds_foldl_insert]
  obtain ⟨i, hi, rfl⟩ := List.mem_iff_getElem.mp hparam
  have hzip : (params[i], args[i]) ∈ params.zip args := by
    rw [List.mem_iff_getElem]
    exact ⟨i, by simp [hlen, hi], by simp⟩
  simp only [Bool.or_eq_true, List.any_eq_true, decide_eq_true_eq]
  exact .inr ⟨_, hzip, rfl⟩

theorem mem_insert {name : String} {value : Value} {entry : String × Value} :
    ∀ {names : Bindings}, entry ∈ names.insert name value → entry.2 = value ∨ entry ∈ names
  | [], h => by
      rw [insert, List.mem_singleton] at h
      exact .inl (by rw [h])
  | (key, old) :: names, h => by
      unfold insert at h
      split at h
      · rcases List.mem_cons.mp h with rfl | h
        · exact .inl rfl
        · exact .inr (List.mem_cons_of_mem _ h)
      · rcases List.mem_cons.mp h with rfl | h
        · exact .inr List.mem_cons_self
        · exact (mem_insert h).imp_right (List.mem_cons_of_mem _)

/-- What parameters are bound to are arguments. -/
theorem mem_ofParameters {params : List Ident} {args : List Value} {entry : String × Value}
    (h : entry ∈ ofParameters params args) : entry.2 ∈ args := by
  have hfold : ∀ (pairs : List (Ident × Value)) (names : Bindings),
      entry ∈ pairs.foldl (fun names pair => names.insert pair.1.name pair.2) names →
      (∃ pair ∈ pairs, entry.2 = pair.2) ∨ entry ∈ names := by
    intro pairs
    induction pairs with
    | nil => exact fun _ h => .inr h
    | cons pair pairs ih =>
        intro names h
        rcases ih _ h with ⟨p, hp, hpair⟩ | h
        · exact .inl ⟨p, List.mem_cons_of_mem _ hp, hpair⟩
        · exact (mem_insert h).imp_left fun heq => ⟨pair, List.mem_cons_self, heq⟩
  rcases hfold _ _ h with ⟨pair, hpair, heq⟩ | h
  · rw [heq]
    exact (List.of_mem_zip hpair).2
  · cases h

end Bindings

namespace Heap

/-! ## Reading after writing -/

theorem scope_addScope (h : Heap) (s : Scope) (i : ScopeId) :
    (h.addScope s).scope i = if i = h.scopes.size then s else h.scope i := by
  unfold scope addScope
  rw [Array.getD_eq_getD_getElem?, Array.getD_eq_getD_getElem?, Array.getElem?_push]
  split <;> simp_all

/-- A position past the end reads as an empty root. -/
theorem scope_of_size_le {h : Heap} {i : ScopeId} (hi : h.scopes.size ≤ i) :
    h.scope i = ⟨none, []⟩ := by
  unfold scope
  rw [Array.getD_eq_getD_getElem?, Array.getElem?_eq_none hi]
  rfl

theorem scope_define (h : Heap) (i : ScopeId) (name : String) (value : Value) (j : ScopeId) :
    (h.define i name value).scope j =
      if i = j ∧ j < h.scopes.size then
        ⟨(h.scope j).enclosing, (h.scope j).names.insert name value⟩
      else h.scope j := by
  unfold scope define
  simp only [Array.getD_eq_getD_getElem?, Array.getElem?_modify]
  by_cases hj : j < h.scopes.size
  · by_cases hij : i = j <;> simp [hij, hj]
  · simp [hj]

theorem enclosing_define (h : Heap) (i : ScopeId) (name : String) (value : Value) (j : ScopeId) :
    ((h.define i name value).scope j).enclosing = (h.scope j).enclosing := by
  rw [scope_define]
  split <;> rfl

theorem binds_define (h : Heap) (i : ScopeId) (name : String) (value : Value) (j : ScopeId)
    (key : String) : ((h.define i name value).scope j).names.binds key =
      ((decide (i = j ∧ j < h.scopes.size) && decide (key = name)) || (h.scope j).names.binds key) := by
  rw [scope_define]
  split
  · rename_i hij
    simp [Bindings.binds_insert, hij]
  · rename_i hij
    rw [decide_eq_false hij]
    simp

/-! ## Growth -/

/-- Scopes keep their place in the nesting and the names they bind. -/
structure Grows (h h' : Heap) : Prop where
  enclosing : ∀ i j, (h.scope i).enclosing = some j → (h'.scope i).enclosing = some j
  binds : ∀ i name, (h.scope i).names.binds name = true → (h'.scope i).names.binds name = true

theorem Grows.refl (h : Heap) : Grows h h := ⟨fun _ _ hi => hi, fun _ _ hb => hb⟩

theorem Grows.trans {h h₁ h₂ : Heap} (g : Grows h h₁) (g' : Grows h₁ h₂) : Grows h h₂ :=
  ⟨fun i j hi => g'.enclosing i j (g.enclosing i j hi),
    fun i name hb => g'.binds i name (g.binds i name hb)⟩

/-- Heaps with the same scopes. -/
theorem Grows.of_scopes_eq {h h' : Heap} (heq : h'.scopes = h.scopes) : Grows h h' := by
  have hscope : ∀ i, h'.scope i = h.scope i := fun i => by unfold scope; rw [heq]
  exact ⟨fun i j hi => by rwa [hscope], fun i name hb => by rwa [hscope]⟩

theorem Grows.addScope (h : Heap) (s : Scope) : Grows h (h.addScope s) := by
  refine ⟨fun i j hi => ?_, fun i name hb => ?_⟩
  · rw [scope_addScope]
    split
    · rename_i heq
      rw [heq, scope_of_size_le (Nat.le_refl _)] at hi
      cases hi
    · exact hi
  · rw [scope_addScope]
    split
    · rename_i heq
      rw [heq, scope_of_size_le (Nat.le_refl _)] at hb
      cases hb
    · exact hb

theorem Grows.addFunction (h : Heap) (f : Function) : Grows h (h.addFunction f) :=
  .of_scopes_eq rfl

theorem Grows.addClass (h : Heap) (c : Class) : Grows h (h.addClass c) := .of_scopes_eq rfl

theorem Grows.define (h : Heap) (i : ScopeId) (name : String) (value : Value) :
    Grows h (h.define i name value) := by
  refine ⟨fun j k hj => ?_, fun j key hb => ?_⟩
  · rwa [enclosing_define]
  · rw [binds_define, hb, Bool.or_true]

/-- Only scopes in the heap are nested in others. -/
theorem lt_size_of_enclosing {h : Heap} {i j : ScopeId} (hi : (h.scope i).enclosing = some j) :
    i < h.scopes.size := by
  refine Nat.lt_of_not_le fun hle => ?_
  rw [scope_of_size_le hle] at hi
  cases hi

/-- A search stops at its own scope if that binds the name. -/
theorem owner?_of_binds {h : Heap} {i : ScopeId} {name : String}
    (hb : (h.scope i).names.binds name = true) : h.owner? i name = some i := by
  unfold owner? ownerWithin
  rw [if_pos hb]

/-- A search from a root finds a name there or not at all. -/
theorem owner?_of_root {h : Heap} {i : ScopeId} {name : String} {owner : ScopeId}
    (hi : (h.scope i).enclosing = none) (ho : h.owner? i name = some owner) :
    owner = i ∧ (h.scope i).names.binds name = true := by
  unfold owner? ownerWithin at ho
  split at ho
  · rename_i hb
    cases ho
    exact ⟨rfl, hb⟩
  · rw [hi] at ho
    cases ho

end Heap

end Scriptlet
