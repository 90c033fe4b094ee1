import Scriptlet.Scope.Resolve
import Scriptlet.Proofs.Tree.Nodes

/-!
# Scoped programs

What it means for a table of scope distances to fit a program.

* `ScopeStack` — the local scopes around a point of a program, the innermost first, and how statements
  change them (`Stmt.scopesAfter`).
* `Layout` — a table, the bound on the node ids it may be asked about, and whether it is strict.
* `Layout.Places Γ r` — the distance of the reference `r` leads to a scope of `Γ`.  A strict layout also
  promises that a name which is read there has a complete declaration.
* `Stmt.Scoped L Γ s`, `FunctionDecl.Scoped L Γ d` — the layout places every reference of a tree, each in
  the scopes around it.  Under a strict layout no branch of an `if` and no body of a loop declares a name.

Principal results: `Stmt.Scoped.bounded` — a layout knows all ids of what it fits; `Stmt.Scoped.grow` — a
layout may grow by new node ids.
-/

set_option autoImplicit false

namespace Scriptlet

/-- The local scopes around a point of a program, the innermost first. -/
abbrev ScopeStack := List NameScope

namespace ScopeStack

/-- Enters a name into the innermost scope, if there is one. -/
def mark (name : String) (complete : Bool) : ScopeStack → ScopeStack
  | [] => []
  | scope :: outer => ((name, complete) :: scope) :: outer

/-- Begins and completes a declaration. -/
def introduce (Γ : ScopeStack) (name : Ident) : ScopeStack :=
  (Γ.mark name.name false).mark name.name true

@[simp] theorem length_mark (name : String) (complete : Bool) (Γ : ScopeStack) :
    (mark name complete Γ).length = Γ.length := by
  cases Γ <;> rfl

@[simp] theorem length_introduce (name : Ident) (Γ : ScopeStack) :
    (Γ.introduce name).length = Γ.length := by
  simp [introduce]

@[simp] theorem mark_nil (name : String) (complete : Bool) : mark name complete [] = [] := rfl

end ScopeStack

/-- The scope of a function's parameters. -/
def parameterScope (params : List Ident) : NameScope :=
  params.foldl (fun scope param => (param.name, true) :: (param.name, false) :: scope) []

/-- Entering parameters into a scope adds only their names. -/
theorem exists_param_of_mem {params : List Ident} {scope : NameScope} {entry : String × Bool}
    (h : entry ∈ params.foldl
      (fun scope param => (param.name, true) :: (param.name, false) :: scope) scope) :
    entry ∈ scope ∨ ∃ param ∈ params, param.name = entry.1 := by
  induction params generalizing scope with
  | nil => exact .inl h
  | cons param params ih =>
      rcases ih h with hmem | ⟨p, hp, hname⟩
      · rcases List.mem_cons.mp hmem with rfl | hmem
        · exact .inr ⟨param, List.mem_cons_self, rfl⟩
        · rcases List.mem_cons.mp hmem with rfl | hmem
          · exact .inr ⟨param, List.mem_cons_self, rfl⟩
          · exact .inl hmem
      · exact .inr ⟨p, List.mem_cons_of_mem _ hp, hname⟩

/-- Only parameters are in the scope of the parameters. -/
theorem exists_of_lookup_parameterScope {params : List Ident} {name : String} {complete : Bool}
    (h : (parameterScope params).lookup name = some complete) : ∃ param ∈ params, param.name = name := by
  obtain ⟨before, after, heq, -⟩ := List.lookup_eq_some_iff.mp h
  have hmem : (name, complete) ∈ parameterScope params := by simp [heq]
  rcases exists_param_of_mem hmem with hnil | hparam
  · cases hnil
  · exact hparam

/-- The scopes after a statement. -/
def Stmt.scopesAfter : Stmt → ScopeStack → ScopeStack
  | .var name _, Γ => Γ.introduce name
  | .function decl, Γ => Γ.introduce decl.name
  | .classDecl name _, Γ => Γ.introduce name
  | .ifElse _ whenTrue none, Γ => whenTrue.scopesAfter Γ
  | .ifElse _ whenTrue (some whenFalse), Γ => whenFalse.scopesAfter (whenTrue.scopesAfter Γ)
  | .whileLoop _ body, Γ => body.scopesAfter Γ
  | _, Γ => Γ

/-- The scopes after several statements. -/
def Stmt.scopesAfterAll (ss : List Stmt) (Γ : ScopeStack) : ScopeStack :=
  ss.foldl (fun Γ s => s.scopesAfter Γ) Γ

@[simp] theorem Stmt.scopesAfterAll_cons (s : Stmt) (ss : List Stmt) (Γ : ScopeStack) :
    Stmt.scopesAfterAll (s :: ss) Γ = Stmt.scopesAfterAll ss (s.scopesAfter Γ) := rfl

/-- A statement opens and closes no scope for the statements after it. -/
@[simp] theorem Stmt.length_scopesAfter (s : Stmt) (Γ : ScopeStack) :
    (s.scopesAfter Γ).length = Γ.length := by
  fun_induction Stmt.scopesAfter s Γ <;> simp_all

@[simp] theorem Stmt.scopesAfter_nil (s : Stmt) : s.scopesAfter [] = [] :=
  List.eq_nil_of_length_eq_zero (by simp)

theorem Stmt.scopesAfterAll_nil (ss : List Stmt) : Stmt.scopesAfterAll ss [] = [] := by
  induction ss with
  | nil => rfl
  | cons s ss ih => rw [Stmt.scopesAfterAll_cons, Stmt.scopesAfter_nil, ih]

/-- A statement only adds to the innermost scope. -/
theorem Stmt.scopesAfter_inner (s : Stmt) (scope : NameScope) (Γ : ScopeStack) :
    ∃ scope', s.scopesAfter (scope :: Γ) = scope' :: Γ := by
  generalize hΔ : scope :: Γ = Δ
  fun_induction Stmt.scopesAfter s Δ generalizing scope with
  | case1 | case2 | case3 => subst hΔ; exact ⟨_, rfl⟩
  | case4 _ _ _ ih => exact ih scope hΔ
  | case5 _ _ _ _ ih₁ ih₂ =>
      obtain ⟨scope', h⟩ := ih₁ scope hΔ
      exact ih₂ scope' h.symm
  | case6 _ _ _ ih => exact ih scope hΔ
  | case7 => exact ⟨scope, hΔ.symm⟩

theorem Stmt.scopesAfterAll_inner (ss : List Stmt) (scope : NameScope) (Γ : ScopeStack) :
    ∃ scope', Stmt.scopesAfterAll ss (scope :: Γ) = scope' :: Γ := by
  induction ss generalizing scope with
  | nil => exact ⟨scope, rfl⟩
  | cons s ss ih =>
      obtain ⟨scope', h⟩ := s.scopesAfter_inner scope Γ
      obtain ⟨scope'', h'⟩ := ih scope'
      exact ⟨scope'', by rw [Stmt.scopesAfterAll_cons, h, h']⟩

/-! ## Layouts -/

/-- A table of scope distances, with what it promises. -/
structure Layout where
  /-- Whether a name that is read has been declared. -/
  strict : Bool
  table : DistanceTable
  /-- Greater than the ids of all nodes of the programs. -/
  bound : NodeId

/-- The distance of a reference leads to one of the scopes. -/
structure Layout.Places (L : Layout) (Γ : ScopeStack) (r : Reference) : Prop where
  bounded : r.id < L.bound
  placed : ∀ distance, L.table.distance? r.id = some distance → ∃ scope, Γ[distance]? = some scope ∧
    (L.strict = true → r.access ≠ .write → scope.lookup r.name = some true)

/-- All references are placed in the same scopes. -/
def Layout.PlacesAll (L : Layout) (Γ : ScopeStack) (refs : List Reference) : Prop :=
  ∀ r ∈ refs, L.Places Γ r

mutual
/-- The layout fits a statement. -/
def Stmt.Scoped (L : Layout) : ScopeStack → Stmt → Prop
  | Γ, .expr e => L.PlacesAll Γ e.references
  | Γ, .print e => L.PlacesAll Γ e.references
  | Γ, .var name init => L.PlacesAll (Γ.mark name.name false) (Expr.referencesOpt init)
  | Γ, .block body => Stmt.ScopedAll L ([] :: Γ) body
  | Γ, .ifElse test whenTrue none =>
      L.PlacesAll Γ test.references ∧ whenTrue.Scoped L Γ ∧
        (L.strict = true → whenTrue.scopesAfter Γ = Γ)
  | Γ, .ifElse test whenTrue (some whenFalse) =>
      L.PlacesAll Γ test.references ∧ whenTrue.Scoped L Γ ∧
        whenFalse.Scoped L (whenTrue.scopesAfter Γ) ∧
        (L.strict = true → whenTrue.scopesAfter Γ = Γ ∧ whenFalse.scopesAfter Γ = Γ)
  | Γ, .whileLoop test body =>
      L.PlacesAll Γ test.references ∧ body.Scoped L Γ ∧
        (L.strict = true → body.scopesAfter Γ = Γ)
  | Γ, .function decl => decl.Scoped L (Γ.introduce decl.name)
  | Γ, .classDecl name methods =>
      FunctionDecl.ScopedAll L ([(thisName, true)] :: Γ.introduce name) methods
  | Γ, .ret _ value => L.PlacesAll Γ (Expr.referencesOpt value)
/-- The layout fits statements that follow one another. -/
def Stmt.ScopedAll (L : Layout) : ScopeStack → List Stmt → Prop
  | _, [] => True
  | Γ, s :: rest => s.Scoped L Γ ∧ Stmt.ScopedAll L (s.scopesAfter Γ) rest
/-- The layout fits a function declared in the given scopes. -/
def FunctionDecl.Scoped (L : Layout) : ScopeStack → FunctionDecl → Prop
  | Γ, .mk _ params body => Stmt.ScopedAll L (parameterScope params :: Γ) body
/-- The layout fits functions declared in the given scopes. -/
def FunctionDecl.ScopedAll (L : Layout) : ScopeStack → List FunctionDecl → Prop
  | _, [] => True
  | Γ, d :: rest => d.Scoped L Γ ∧ FunctionDecl.ScopedAll L Γ rest
end

theorem FunctionDecl.scopedAll_iff {L : Layout} {Γ : ScopeStack} {ds : List FunctionDecl} :
    FunctionDecl.ScopedAll L Γ ds ↔ ∀ d ∈ ds, d.Scoped L Γ := by
  induction ds with
  | nil => simp [FunctionDecl.ScopedAll]
  | cons d ds ih => simp [FunctionDecl.ScopedAll, ih]

/-! ## Bounds -/

theorem Layout.PlacesAll.bounded {L : Layout} {Γ : ScopeStack} {refs : List Reference}
    (h : L.PlacesAll Γ refs) : ∀ r ∈ refs, r.id < L.bound :=
  fun r hr => (h r hr).bounded

mutual
/-- The ids of a scoped statement are known to the layout. -/
theorem Stmt.Scoped.bounded {L : Layout} : ∀ {Γ : ScopeStack} {s : Stmt}, s.Scoped L Γ →
    ∀ r ∈ s.references, r.id < L.bound
  | _, .expr _, h => Layout.PlacesAll.bounded h
  | _, .print _, h => Layout.PlacesAll.bounded h
  | _, .var _ _, h => Layout.PlacesAll.bounded h
  | _, .block _, h => Stmt.ScopedAll.bounded h
  | _, .ifElse _ _ none, ⟨ht, ha, _⟩ => fun r hr =>
      (List.mem_append.mp hr).elim (ht.bounded r) (Stmt.Scoped.bounded ha r)
  | _, .ifElse _ _ (some _), ⟨ht, ha, hb, _⟩ => fun r hr =>
      (List.mem_append.mp hr).elim
        (fun hr => (List.mem_append.mp hr).elim (ht.bounded r) (Stmt.Scoped.bounded ha r))
        (Stmt.Scoped.bounded hb r)
  | _, .whileLoop _ _, ⟨ht, hb, _⟩ => fun r hr =>
      (List.mem_append.mp hr).elim (ht.bounded r) (Stmt.Scoped.bounded hb r)
  | _, .function _, h => FunctionDecl.Scoped.bounded h
  | _, .classDecl _ _, h => FunctionDecl.ScopedAll.bounded h
  | _, .ret _ _, h => Layout.PlacesAll.bounded h
theorem Stmt.ScopedAll.bounded {L : Layout} : ∀ {Γ : ScopeStack} {ss : List Stmt},
    Stmt.ScopedAll L Γ ss → ∀ r ∈ Stmt.referencesAll ss, r.id < L.bound
  | _, [], _ => nofun
  | _, _ :: _, ⟨h, hs⟩ => fun r hr =>
      (List.mem_append.mp hr).elim (Stmt.Scoped.bounded h r) (Stmt.ScopedAll.bounded hs r)
theorem FunctionDecl.Scoped.bounded {L : Layout} : ∀ {Γ : ScopeStack} {d : FunctionDecl},
    d.Scoped L Γ → ∀ r ∈ d.references, r.id < L.bound
  | _, .mk _ _ _, h => Stmt.ScopedAll.bounded h
theorem FunctionDecl.ScopedAll.bounded {L : Layout} : ∀ {Γ : ScopeStack} {ds : List FunctionDecl},
    FunctionDecl.ScopedAll L Γ ds → ∀ r ∈ FunctionDecl.referencesAll ds, r.id < L.bound
  | _, [], _ => nofun
  | _, _ :: _, ⟨h, hs⟩ => fun r hr =>
      (List.mem_append.mp hr).elim (FunctionDecl.Scoped.bounded h r) (FunctionDecl.ScopedAll.bounded hs r)
end

/-! ## Growing layouts -/

/-- A layout that knows more nodes. -/
structure Layout.Extends (L L' : Layout) : Prop where
  strict : L'.strict = L.strict
  bound : L.bound ≤ L'.bound
  table : ∀ id < L.bound, L'.table.distance? id = L.table.distance? id

theorem Layout.Places.grow {L L' : Layout} (hL : L.Extends L') {Γ : ScopeStack} {r : Reference}
    (h : L.Places Γ r) : L'.Places Γ r where
  bounded := Nat.lt_of_lt_of_le h.bounded hL.bound
  placed := by
    intro distance hd
    rw [hL.table _ h.bounded] at hd
    obtain ⟨scope, hscope, hstrict⟩ := h.placed distance hd
    exact ⟨scope, hscope, fun hs => hstrict (hL.strict ▸ hs)⟩

theorem Layout.PlacesAll.grow {L L' : Layout} (hL : L.Extends L') {Γ : ScopeStack}
    {refs : List Reference} (h : L.PlacesAll Γ refs) : L'.PlacesAll Γ refs :=
  fun r hr => (h r hr).grow hL

mutual
theorem Stmt.Scoped.grow {L L' : Layout} (hL : L.Extends L') :
    ∀ {Γ : ScopeStack} {s : Stmt}, s.Scoped L Γ → s.Scoped L' Γ
  | _, .expr _, h => Layout.PlacesAll.grow hL h
  | _, .print _, h => Layout.PlacesAll.grow hL h
  | _, .var _ _, h => Layout.PlacesAll.grow hL h
  | _, .block _, h => Stmt.ScopedAll.grow hL h
  | _, .ifElse _ _ none, ⟨ht, ha, hs⟩ =>
      ⟨Layout.PlacesAll.grow hL ht, Stmt.Scoped.grow hL ha, fun h => hs (hL.strict ▸ h)⟩
  | _, .ifElse _ _ (some _), ⟨ht, ha, hb, hs⟩ =>
      ⟨Layout.PlacesAll.grow hL ht, Stmt.Scoped.grow hL ha, Stmt.Scoped.grow hL hb,
        fun h => hs (hL.strict ▸ h)⟩
  | _, .whileLoop _ _, ⟨ht, hb, hs⟩ =>
      ⟨Layout.PlacesAll.grow hL ht, Stmt.Scoped.grow hL hb, fun h => hs (hL.strict ▸ h)⟩
  | _, .function _, h => FunctionDecl.Scoped.grow hL h
  | _, .classDecl _ _, h => FunctionDecl.ScopedAll.grow hL h
  | _, .ret _ _, h => Layout.PlacesAll.grow hL h
theorem Stmt.ScopedAll.grow {L L' : Layout} (hL : L.Extends L') :
    ∀ {Γ : ScopeStack} {ss : List Stmt}, Stmt.ScopedAll L Γ ss → Stmt.ScopedAll L' Γ ss
  | _, [], h => h
  | _, _ :: _, ⟨h, hs⟩ => ⟨Stmt.Scoped.grow hL h, Stmt.ScopedAll.grow hL hs⟩
theorem FunctionDecl.Scoped.grow {L L' : Layout} (hL : L.Extends L') :
    ∀ {Γ : ScopeStack} {d : FunctionDecl}, d.Scoped L Γ → d.Scoped L' Γ
  | _, .mk _ _ _, h => Stmt.ScopedAll.grow hL h
theorem FunctionDecl.ScopedAll.grow {L L' : Layout} (hL : L.Extends L') :
    ∀ {Γ : ScopeStack} {ds : List FunctionDecl}, FunctionDecl.ScopedAll L Γ ds →
      FunctionDecl.ScopedAll L' Γ ds
  | _, [], h => h
  | _, _ :: _, ⟨h, hs⟩ => ⟨FunctionDecl.Scoped.grow hL h, FunctionDecl.ScopedAll.grow hL hs⟩
end

end Scriptlet
