import Mathlib
import Scriptlet.Proofs.Heap.Receivers

/-!
# Searching and direct access agree

A search for a name goes outward from a scope; direct access counts the scopes on the way.  In every heap that is built
by allocating scopes and giving values to names, the two come to the same scope.

* `Heap.Built h` — the scopes of the heap were made by some sequence of new roots, new inner scopes, definitions, and
  assignments of both kinds.
* `Heap.Nearest h e name d owner` — `owner` is the nearest scope outward from `e` that binds the name, at distance `d`.
* `Heap.Rebinds h owner name value h'` — the heaps differ in the value of one name in one scope, and in nothing else.
* `Exec.searchFrom`, `Exec.assignAt` — a search as a reading, and direct access as an assignment.  By `Exec.lookUp_eq`
  and `Exec.assign_eq` they are what the evaluator does with a reference.

Principal results: `Heap.Built.nested` — scopes are nested in earlier ones, whatever the history;
`Heap.Nested.owner?_iff` — a search ends at the nearest scope; `Exec.access_agrees`.
-/

set_option autoImplicit false

namespace Scriptlet

namespace Heap

/-- Heaps whose scopes were made by allocation, definition and assignment, in any order. -/
inductive Built : Heap → Prop
  | start {h : Heap} : h.scopes = #[] → Built h
  | root {h : Heap} : Built h → Built (h.addScope ⟨none, []⟩)
  | child {h : Heap} {e : ScopeId} : Built h → e < h.scopes.size → Built (h.addScope ⟨some e, []⟩)
  | define {h : Heap} {e : ScopeId} (name : String) (value : Value) : Built h → e < h.scopes.size →
      Built (h.define e name value)
  | assign {h h' : Heap} {e : ScopeId} {name : String} {value : Value} : Built h → e < h.scopes.size →
      h.searchAssign? e name value = some h' → Built h'
  | assignAt {h h' : Heap} {e : ScopeId} {distance : Nat} {name : String} {value : Value} : Built h →
      e < h.scopes.size → h.assignAt e distance name value = .ok h' → Built h'

/-- The nearest scope outward that binds a name, and its distance. -/
structure Nearest (h : Heap) (e : ScopeId) (name : String) (distance : Nat) (owner : ScopeId) : Prop where
  ancestor : h.ancestor? e distance = some owner
  binds : (h.scope owner).names.binds name = true
  free : ∀ d < distance, ∀ i, h.ancestor? e d = some i → (h.scope i).names.binds name = false

/-- One name of one scope has another value; that is all. -/
structure Rebinds (h : Heap) (owner : ScopeId) (name : String) (value : Value) (h' : Heap) : Prop where
  bound : (h'.scope owner).names.get? name = some value
  others : ∀ i key, i ≠ owner ∨ key ≠ name → (h'.scope i).names.get? key = (h.scope i).names.get? key
  enclosing : ∀ i, (h'.scope i).enclosing = (h.scope i).enclosing
  count : h'.scopes.size = h.scopes.size
  rest : h' = { h with scopes := h'.scopes }

/-! ## Nesting -/

theorem Nested.addScope {h : Heap} (hh : h.Nested) {s : Scope} (hs : ∀ j, s.enclosing = some j → j < h.scopes.size) :
    (h.addScope s).Nested := by
  intro i j hj
  rw [scope_addScope] at hj
  split at hj
  · rename_i heq
    exact heq ▸ hs j hj
  · exact hh i j hj

theorem Nested.define {h : Heap} (hh : h.Nested) (e : ScopeId) (name : String) (value : Value) :
    (h.define e name value).Nested := by
  intro i j hj
  rw [enclosing_define] at hj
  exact hh i j hj

/-- **Whatever its history, a heap nests scopes in earlier ones.** -/
theorem Built.nested {h : Heap} (hh : h.Built) : h.Nested := by
  induction hh with
  | start hnone =>
      intro i j hj
      have hlt := lt_size_of_enclosing hj
      rw [hnone] at hlt
      exact absurd hlt (Nat.not_lt_zero i)
  | root _ ih => exact ih.addScope nofun
  | child _ he ih =>
      refine ih.addScope fun j hj => ?_
      cases hj
      exact he
  | define name value _ _ ih => exact ih.define _ name value
  | assign _ _ hassign ih =>
      obtain ⟨owner, -, rfl⟩ := Option.map_eq_some_iff.mp hassign
      exact ih.define owner _ _
  | assignAt _ _ hassign ih =>
      unfold Heap.assignAt at hassign
      split at hassign
      · cases hassign
      · cases hassign
        exact ih.define _ _ _

/-! ## Searches -/

section Searches

variable {h : Heap} {e owner : ScopeId} {name : String} {d : Nat}

theorem ancestor?_succ {outer : ScopeId} (houter : (h.scope e).enclosing = some outer) (d : Nat) :
    h.ancestor? e (d + 1) = h.ancestor? outer d := by
  rw [ancestor?, houter]

/-- Where the search ends is a scope outward that binds the name. -/
theorem exists_ancestor_of_ownerWithin {bound : Nat} (ho : h.ownerWithin name bound e = some owner) :
    ∃ d, h.ancestor? e d = some owner := by
  induction bound generalizing e with
  | zero => cases ho
  | succ bound ih =>
      rw [ownerWithin] at ho
      split at ho
      · cases ho
        exact ⟨0, rfl⟩
      · split at ho
        · rename_i outer houter
          obtain ⟨d, hd⟩ := ih ho
          exact ⟨d + 1, by rw [ancestor?_succ houter, hd]⟩
        · cases ho

/-- The nearest scope of an outer scope is the nearest one of a scope that does not bind the name. -/
theorem Nearest.outer (hn : h.Nearest e name (d + 1) owner) :
    ∃ outer, (h.scope e).enclosing = some outer ∧ h.Nearest outer name d owner := by
  cases houter : (h.scope e).enclosing with
  | none =>
      have hancestor := hn.ancestor
      rw [ancestor?, houter] at hancestor
      cases hancestor
  | some outer =>
      refine ⟨outer, rfl, by rw [← ancestor?_succ houter]; exact hn.ancestor, hn.binds, fun d' hd' i hi => ?_⟩
      exact hn.free (d' + 1) (Nat.succ_lt_succ hd') i (by rw [ancestor?_succ houter, hi])

/-- The search comes to the nearest scope before its bound is used up. -/
theorem Nested.ownerWithin_of_nearest (hh : h.Nested) {bound : Nat} (he : e < bound)
    (hn : h.Nearest e name d owner) : h.ownerWithin name bound e = some owner := by
  induction d generalizing e bound with
  | zero =>
      obtain ⟨bound, rfl⟩ := Nat.exists_eq_succ_of_ne_zero (Nat.ne_zero_of_lt he)
      have howner : e = owner := Option.some.inj hn.ancestor
      rw [ownerWithin, howner, if_pos hn.binds]
  | succ d ih =>
      obtain ⟨bound, rfl⟩ := Nat.exists_eq_succ_of_ne_zero (Nat.ne_zero_of_lt he)
      obtain ⟨outer, houter, hnearest⟩ := hn.outer
      have hfree : (h.scope e).names.binds name = false := hn.free 0 (Nat.succ_pos d) e rfl
      have hlt : outer < bound := Nat.lt_of_lt_of_le (hh e outer houter) (Nat.le_of_lt_succ he)
      rw [ownerWithin, hfree, houter]
      exact ih hlt hnearest

/-- If some scope outward binds the name, one of them is the nearest. -/
theorem exists_nearest {i : ScopeId} (hi : h.ancestor? e d = some i) (hb : (h.scope i).names.binds name = true) :
    ∃ d' owner, h.Nearest e name d' owner := by
  classical
  have hsome : ∃ d i, h.ancestor? e d = some i ∧ (h.scope i).names.binds name = true := ⟨d, i, hi, hb⟩
  obtain ⟨owner, howner, hbinds⟩ := Nat.find_spec hsome
  refine ⟨Nat.find hsome, owner, howner, hbinds, fun d' hd' j hj => ?_⟩
  have hnot := Nat.find_min hsome hd'
  exact Bool.eq_false_iff.mpr fun hbj => hnot ⟨j, hj, hbj⟩

/-- **A search ends at the nearest scope.** -/
theorem Nested.owner?_iff (hh : h.Nested) : h.owner? e name = some owner ↔ ∃ d, h.Nearest e name d owner := by
  constructor
  · intro ho
    obtain ⟨d, hd⟩ := exists_ancestor_of_ownerWithin ho
    obtain ⟨d', owner', hn⟩ := exists_nearest hd (ownerWithin_binds ho)
    have howner : h.owner? e name = some owner' := hh.ownerWithin_of_nearest (Nat.lt_succ_self e) hn
    rw [ho] at howner
    cases howner
    exact ⟨d', hn⟩
  · rintro ⟨d, hn⟩
    exact hh.ownerWithin_of_nearest (Nat.lt_succ_self e) hn

theorem Nested.owner?_eq_none (hh : h.Nested)
    (hfree : ∀ d i, h.ancestor? e d = some i → (h.scope i).names.binds name = false) : h.owner? e name = none := by
  cases ho : h.owner? e name with
  | none => rfl
  | some owner =>
      obtain ⟨d, hn⟩ := hh.owner?_iff.mp ho
      exact absurd hn.binds (Bool.eq_false_iff.mp (hfree d owner hn.ancestor))

/-- A scope that binds a name has a value for it. -/
theorem exists_of_binds {names : Bindings} (hb : names.binds name = true) : ∃ v, names.get? name = some v :=
  Option.isSome_iff_exists.mp hb

theorem rebinds_define (hb : (h.scope owner).names.binds name = true) (value : Value) :
    h.Rebinds owner name value (h.define owner name value) := by
  have hlt : owner < h.scopes.size := by
    refine Nat.lt_of_not_le fun hle => ?_
    rw [scope_of_size_le hle] at hb
    cases hb
  refine ⟨?_, fun i key hne => ?_, fun i => enclosing_define h owner name value i, by simp [Heap.define], rfl⟩
  · rw [scope_define, if_pos ⟨rfl, hlt⟩, Bindings.get?_insert, if_pos rfl]
  · rw [scope_define]
    split
    · rename_i hi
      have hkey : key ≠ name := hne.resolve_left fun hother => hother hi.1.symm
      rw [Bindings.get?_insert, if_neg hkey]
    · rfl

end Searches

end Heap

/-! ## Access as actions -/

namespace Exec

/-- Searches outward from a scope for the value of a name. -/
def searchFrom (scope : ScopeId) (name : Ident) : Exec Value := fun m =>
  match m.heap.search? scope name.name with
  | some value => .ok value m
  | none => .error (.error (.script name.line (.undefinedVariable name.name))) m

/-- Assigns to a name at a distance from a scope. -/
def assignAt (scope : ScopeId) (distance : Nat) (name : String) (value : Value) : Exec Unit := fun m =>
  match m.heap.assignAt scope distance name value with
  | .ok h => .ok () { m with heap := h }
  | .error f => .error (.fault f) m

/-- A reference with a distance is read directly, any other by a search from the global scope. -/
theorem lookUp_eq (id : NodeId) (name : Ident) (m : Machine) :
    lookUp id name m = match m.table.distance? id with
      | some distance => readAt m.current distance name.name m
      | none => searchFrom globalScope name m := rfl

/-- A reference with a distance is assigned directly, any other by a search from the global scope. -/
theorem assign_eq (id : NodeId) (name : Ident) (value : Value) (m : Machine) :
    assign id name value m = match m.table.distance? id with
      | some distance => assignAt m.current distance name.name value m
      | none => assignFrom globalScope name value m := by
  unfold assign assignAt Heap.assignAt
  cases m.table.distance? id with
  | none => rfl
  | some distance => cases howner : m.heap.ancestor? m.current distance <;> simp only [howner]

section Agreement

variable {m : Machine} {e : ScopeId} {name : Ident}

/-- A search that finds the nearest scope reads and assigns what direct access to that scope does. -/
theorem access_of_nearest {d : Nat} {owner : ScopeId} (hm : m.heap.Nested)
    (hn : m.heap.Nearest e name.name d owner) :
    (∃ v, searchFrom e name m = .ok v m ∧ readAt e d name.name m = .ok v m) ∧
    ∀ v, assignFrom e name v m = .ok () { m with heap := m.heap.define owner name.name v } ∧
      assignAt e d name.name v m = .ok () { m with heap := m.heap.define owner name.name v } := by
  have howner := hm.owner?_iff.mpr ⟨d, hn⟩
  obtain ⟨v, hv⟩ := Heap.exists_of_binds hn.binds
  refine ⟨⟨v, ?_, ?_⟩, fun value => ⟨?_, ?_⟩⟩
  · unfold searchFrom Heap.search?
    rw [howner, Option.bind_some, hv]
  · unfold readAt Heap.readAt
    simp only [hn.ancestor, hv]
  · unfold assignFrom
    rw [howner]
  · unfold assignAt Heap.assignAt
    simp only [hn.ancestor]

/-- A search for a name that no scope outward binds is an error and changes nothing. -/
theorem access_of_free (hm : m.heap.Nested)
    (hfree : ∀ d i, m.heap.ancestor? e d = some i → (m.heap.scope i).names.binds name.name = false) :
    searchFrom e name m = .error (.error (.script name.line (.undefinedVariable name.name))) m ∧
    ∀ v, assignFrom e name v m = .error (.error (.script name.line (.undefinedVariable name.name))) m := by
  have howner := hm.owner?_eq_none hfree
  constructor
  · unfold searchFrom Heap.search?
    rw [howner, Option.bind_none]
  · intro v
    unfold assignFrom
    rw [howner]

/-- **Searching and direct access agree.**  In a heap of any history, a search from a scope finds a name exactly if some
scope outward binds it.  It then reads and assigns what direct access at the distance of the nearest such scope does,
and an assignment changes the value of the name in that scope and nothing else.  A name that no scope outward binds is
undefined for reading and for assignment, and nothing changes. -/
theorem access_agrees (hm : m.heap.Built) (e : ScopeId) (name : Ident) :
    ((∃ v, searchFrom e name m = .ok v m) ↔
      ∃ d i, m.heap.ancestor? e d = some i ∧ (m.heap.scope i).names.binds name.name = true) ∧
    (∀ d owner, m.heap.Nearest e name.name d owner →
      (∃ v, searchFrom e name m = .ok v m ∧ readAt e d name.name m = .ok v m) ∧
      ∀ v, ∃ h, assignFrom e name v m = .ok () { m with heap := h } ∧
        assignAt e d name.name v m = .ok () { m with heap := h } ∧ m.heap.Rebinds owner name.name v h) ∧
    ((∀ d i, m.heap.ancestor? e d = some i → (m.heap.scope i).names.binds name.name = false) →
      searchFrom e name m = .error (.error (.script name.line (.undefinedVariable name.name))) m ∧
      ∀ v, assignFrom e name v m = .error (.error (.script name.line (.undefinedVariable name.name))) m) := by
  have hnested := hm.nested
  refine ⟨⟨?_, ?_⟩, fun d owner hn => ?_, access_of_free hnested⟩
  · rintro ⟨v, hv⟩
    -- A search that ends well does not end as it would if no scope outward had the name.
    by_contra hnone
    have hfree : ∀ d i, m.heap.ancestor? e d = some i → (m.heap.scope i).names.binds name.name = false :=
      fun d i hi => Bool.eq_false_iff.mpr fun hb => hnone ⟨d, i, hi, hb⟩
    rw [(access_of_free hnested hfree).1] at hv
    cases hv
  · rintro ⟨d, i, hi, hb⟩
    obtain ⟨d', owner, hn⟩ := Heap.exists_nearest hi hb
    obtain ⟨⟨v, hv, -⟩, -⟩ := access_of_nearest hnested hn
    exact ⟨v, hv⟩
  · obtain ⟨hread, hassign⟩ := access_of_nearest hnested hn
    exact ⟨hread, fun v => ⟨_, (hassign v).1, (hassign v).2, Heap.rebinds_define hn.binds v⟩⟩

/-- A machine with a name that is bound in the global scope and in a scope inside it, and with a scope inside that. -/
def twoLevels : Machine :=
  { Machine.initial .unlimited fun _ => 0 with
    heap := (((Heap.empty.define 0 "a" (.bool true)).addScope ⟨some 0, []⟩).define 1 "a" (.bool false)).addScope
      ⟨some 1, []⟩ }

theorem twoLevels_built : twoLevels.heap.Built := by
  have hroot : Heap.empty.Built := .root (h := ⟨#[], #[], #[], #[], #[], #[]⟩) (.start rfl)
  have houter := Heap.Built.child (hroot.define "a" (.bool true) (e := 0) (by decide)) (e := 0) (by decide)
  exact .child (houter.define "a" (.bool false) (e := 1) (by decide)) (by decide)

/-- From the innermost scope the name is found one scope outward, and assigning it leaves the global one as it is. -/
theorem access_agrees_twoLevels :
    twoLevels.heap.Built ∧ twoLevels.heap.Nearest 2 "a" 1 1 ∧
    (∃ v, searchFrom 2 ⟨"a", 1⟩ twoLevels = .ok v twoLevels ∧ readAt 2 1 "a" twoLevels = .ok v twoLevels) ∧
    (∃ h, assignFrom 2 ⟨"a", 1⟩ .null twoLevels = .ok () { twoLevels with heap := h } ∧
      assignAt 2 1 "a" .null twoLevels = .ok () { twoLevels with heap := h } ∧
      (h.scope 0).names.get? "a" = some (.bool true)) ∧
    searchFrom 2 ⟨"b", 7⟩ twoLevels = .error (.error (.script 7 (.undefinedVariable "b"))) twoLevels := by
  have hnearest : twoLevels.heap.Nearest 2 "a" 1 1 := by
    refine ⟨by decide, by decide, fun d hd i hi => ?_⟩
    obtain rfl : d = 0 := Nat.lt_one_iff.mp hd
    cases hi
    decide
  have hfree : ∀ d i, twoLevels.heap.ancestor? 2 d = some i → (twoLevels.heap.scope i).names.binds "b" = false := by
    intro d i hi
    rcases d with _ | _ | _ | d
    · cases hi
      decide
    · cases hi
      decide
    · cases hi
      decide
    · cases hi
  obtain ⟨-, hfound, -⟩ := access_agrees twoLevels_built 2 ⟨"a", 1⟩
  obtain ⟨-, -, hundefined⟩ := access_agrees twoLevels_built 2 ⟨"b", 7⟩
  obtain ⟨hread, hassign⟩ := hfound 1 1 hnearest
  obtain ⟨h, hsearch, hdirect, hrebinds⟩ := hassign .null
  have hglobal := hrebinds.others 0 "a" (.inl (by decide))
  exact ⟨twoLevels_built, hnearest, hread, ⟨h, hsearch, hdirect, hglobal.trans (by decide)⟩, (hundefined hfree).1⟩

end Agreement

end Exec

end Scriptlet
