import Scriptlet.Proofs.Scoping.Static

/-!
# Walks of the resolver

`Resolution.Walks ids Γ st st'` says what any walk does to its state: it leaves the scopes of its text, keeps
errors on record and files nothing under the ids of other nodes.

Principal results: `Expr.resolve_walks`, `Stmt.resolveAll_walks` — resolving a tree is a walk over its
references, and the scopes it leaves are those after its statements.
-/

set_option autoImplicit false

namespace Scriptlet

@[simp] theorem DistanceTable.distance?_file (table : DistanceTable) (id id' : NodeId)
    (distance : Nat) : (table.file id distance).distance? id' =
      if id = id' then some distance else table.distance? id' := by
  simp [DistanceTable.file, DistanceTable.distance?, Std.TreeMap.getElem?_insert]

/-- What a walk over nodes with the given ids does to its state; `Γ` are the scopes it leaves. -/
structure Resolution.Walks (ids : List NodeId) (Γ : ScopeStack) (st st' : Resolution) : Prop where
  scopes : st'.scopes = Γ
  errors : st'.errors = [] → st.errors = []
  frame : ∀ id, id ∉ ids → st'.table.distance? id = st.table.distance? id

namespace Resolution

variable {st st₁ st₂ : Resolution} {ids ids' : List NodeId} {Γ Γ' : ScopeStack}

theorem Walks.trans (h : Walks ids Γ st st₁) (h' : Walks ids' Γ' st₁ st₂) :
    Walks (ids ++ ids') Γ' st st₂ where
  scopes := h'.scopes
  errors := fun he => h.errors (h'.errors he)
  frame := by
    intro id hid
    rw [List.mem_append, not_or] at hid
    rw [h'.frame id hid.2, h.frame id hid.1]

theorem walks_refl (st : Resolution) : Walks [] st.scopes st st := ⟨rfl, id, fun _ _ => rfl⟩

theorem walks_report (st : Resolution) (line : Nat) (lexeme : String) (fault : StaticFault) :
    Walks [] st.scopes st (st.report line lexeme fault) :=
  ⟨rfl, by simp [report], fun _ _ => rfl⟩

theorem walks_enter (st : Resolution) (scope : NameScope) :
    Walks [] (scope :: st.scopes) st (st.enter scope) :=
  ⟨rfl, id, fun _ _ => rfl⟩

theorem walks_leave (st : Resolution) : Walks [] st.scopes.tail st st.leave :=
  ⟨rfl, id, fun _ _ => rfl⟩

theorem walks_mark (st : Resolution) (name : String) (complete : Bool) :
    Walks [] (ScopeStack.mark name complete st.scopes) st (st.mark name complete) := by
  unfold mark
  split
  · rename_i h
    exact ⟨by rw [h]; rfl, id, fun _ _ => rfl⟩
  · rename_i h
    exact ⟨by rw [h]; rfl, id, fun _ _ => rfl⟩

theorem walks_declare (st : Resolution) (name : Ident) :
    Walks [] (ScopeStack.mark name.name false st.scopes) st (st.declare name) := by
  unfold declare
  simp only
  split
  · exact (walks_report st _ _ _).trans (walks_mark (st.report _ _ _) _ _)
  · exact walks_mark _ _ _

theorem walks_introduce (st : Resolution) (name : Ident) :
    Walks [] (ScopeStack.introduce st.scopes name) st (st.introduce name) := by
  have h := walks_declare st name
  have h' := walks_mark (st.declare name) name.name true
  rw [h.scopes] at h'
  exact h.trans h'

theorem walks_refer (st : Resolution) (id : NodeId) (name : String) :
    Walks [id] st.scopes st (st.refer id name) := by
  unfold refer
  split
  · refine ⟨rfl, fun h => h, fun id' hid => ?_⟩
    simp_all [eq_comm]
  · exact ⟨rfl, fun h => h, fun _ _ => rfl⟩

/-- A walk that may report an error. -/
theorem walks_ifReport (c : Bool) (st : Resolution) (line : Nat) (lexeme : String)
    (fault : StaticFault) : Walks [] st.scopes st (if c then st.report line lexeme fault else st) := by
  cases c with
  | false => exact walks_refl st
  | true => exact walks_report st line lexeme fault

/-- Two walks that leave the scopes as they were. -/
theorem Walks.andThen (h : Walks ids st.scopes st st₁) (h' : Walks ids' st₁.scopes st₁ st₂) :
    Walks (ids ++ ids') st.scopes st st₂ :=
  h.trans (h.scopes ▸ h')

/-- The order in which ids were filed does not matter. -/
theorem Walks.subset (h : Walks ids Γ st st₁) (hids : ∀ id ∈ ids, id ∈ ids') :
    Walks ids' Γ st st₁ :=
  ⟨h.scopes, h.errors, fun id hid => h.frame id fun hm => hid (hids id hm)⟩

end Resolution

open Resolution

mutual
theorem Expr.resolve_walks (site : Site) : ∀ (e : Expr) (st : Resolution),
    Walks (Reference.ids e.references) st.scopes st (e.resolve site st)
  | .lit _, st => walks_refl st
  | .group inner, st => inner.resolve_walks site st
  | .unary _ operand, st => operand.resolve_walks site st
  | .binary _ left right, st => by
      simpa [Expr.references, Expr.resolve] using
        (left.resolve_walks site st).andThen (right.resolve_walks site _)
  | .logical _ left right, st => by
      simpa [Expr.references, Expr.resolve] using
        (left.resolve_walks site st).andThen (right.resolve_walks site _)
  | .ternary test whenTrue whenFalse, st => by
      simpa [Expr.references, Expr.resolve] using ((test.resolve_walks site st).andThen
        (whenTrue.resolve_walks site _)).andThen (whenFalse.resolve_walks site _)
  | .var id name, st => (walks_ifReport _ st _ _ _).andThen (walks_refer _ id name.name)
  | .assign id name value, st =>
      ((value.resolve_walks site st).andThen (walks_refer _ id name.name)).subset (by
        simpa [Expr.references] using fun _ => Or.symm)
  | .update id name op operand, st =>
      ((operand.resolve_walks site st).andThen (walks_refer _ id name.name)).subset (by
        simpa [Expr.references] using fun _ => Or.symm)
  | .this id line, st => by
      rw [Expr.resolve]
      split
      · exact walks_refer st id thisName
      · exact (walks_report st line thisName _).subset (by simp)
  | .array items, st => Expr.resolveAll_walks site items st
  | .index target _ position, st => by
      simpa [Expr.references, Expr.resolve] using
        (target.resolve_walks site st).andThen (position.resolve_walks site _)
  | .call callee _ args, st => by
      simpa [Expr.references, Expr.resolve] using
        (callee.resolve_walks site st).andThen (Expr.resolveAll_walks site args _)
  | .get object _, st => object.resolve_walks site st
  | .set object _ value, st =>
      ((value.resolve_walks site st).andThen (object.resolve_walks site _)).subset (by
        simpa [Expr.references] using fun _ => Or.symm)
theorem Expr.resolveAll_walks (site : Site) : ∀ (es : List Expr) (st : Resolution),
    Walks (Reference.ids (Expr.referencesAll es)) st.scopes st (Expr.resolveAll site es st)
  | [], st => walks_refl st
  | e :: es, st => by
      simpa [Expr.referencesAll, Expr.resolveAll] using
        (e.resolve_walks site st).andThen (Expr.resolveAll_walks site es _)
end

theorem walks_parameters (params : List Ident) (st : Resolution) (scope : NameScope) (Γ : ScopeStack)
    (hst : st.scopes = scope :: Γ) :
    Walks [] (params.foldl (fun scope param => (param.name, true) :: (param.name, false) :: scope)
      scope :: Γ) st (params.foldl Resolution.introduce st) := by
  induction params generalizing st scope with
  | nil => exact hst ▸ walks_refl st
  | cons param params ih =>
      have h := walks_introduce st param
      rw [hst] at h
      exact h.trans (ih (st.introduce param) _ h.scopes)

theorem walks_checkReturn (site : Site) (line : Nat) (hasValue : Bool) (st : Resolution) :
    Walks [] st.scopes st (st.checkReturn site line hasValue) := by
  unfold Resolution.checkReturn
  simp only
  split <;> split
  · exact (walks_report st _ _ _).andThen (walks_report _ _ _ _)
  · exact walks_report st _ _ _
  · exact walks_report st _ _ _
  · exact walks_refl st

mutual
theorem Stmt.resolve_walks (site : Site) : ∀ (s : Stmt) (st : Resolution),
    Walks (Reference.ids s.references) (s.scopesAfter st.scopes) st (s.resolve site st)
  | .expr e, st => e.resolve_walks site st
  | .print e, st => e.resolve_walks site st
  | .var name none, st => walks_introduce st name
  | .var name (some init), st => by
      have h₁ := walks_declare st name
      have h₂ := init.resolve_walks site (st.declare name)
      have h₃ := walks_mark (init.resolve site (st.declare name)) name.name true
      rw [h₂.scopes, h₁.scopes] at h₃
      rw [h₁.scopes] at h₂
      simpa [Stmt.references, Expr.referencesOpt, Stmt.resolve, Stmt.scopesAfter, ScopeStack.introduce,
        Resolution.define] using (h₁.trans h₂).trans h₃
  | .block body, st => by
      have h := (walks_enter st []).trans (Stmt.resolveAll_walks site body (st.enter []))
      have h' := h.trans (walks_leave _)
      obtain ⟨scope, hscope⟩ := Stmt.scopesAfterAll_inner body [] st.scopes
      rw [h.scopes, walks_enter st [] |>.scopes, hscope] at h'
      simpa [Stmt.references, Stmt.resolve, Stmt.scopesAfter] using h'
  | .ifElse test whenTrue none, st => by
      have h := whenTrue.resolve_walks site (test.resolve site st)
      rw [(test.resolve_walks site st).scopes] at h
      simpa [Stmt.references, Stmt.resolve, Stmt.scopesAfter] using (test.resolve_walks site st).trans h
  | .ifElse test whenTrue (some whenFalse), st => by
      have h := whenTrue.resolve_walks site (test.resolve site st)
      rw [(test.resolve_walks site st).scopes] at h
      have h' := whenFalse.resolve_walks site (whenTrue.resolve site (test.resolve site st))
      rw [h.scopes] at h'
      simpa [Stmt.references, Stmt.resolve, Stmt.scopesAfter] using ((test.resolve_walks site st).trans h).trans h'
  | .whileLoop test body, st => by
      have h := body.resolve_walks site (test.resolve site st)
      rw [(test.resolve_walks site st).scopes] at h
      simpa [Stmt.references, Stmt.resolve, Stmt.scopesAfter] using (test.resolve_walks site st).trans h
  | .function decl, st => by
      have h := walks_introduce st decl.name
      have h' := decl.resolve_walks ⟨.function, site.inClass⟩ (st.introduce decl.name)
      rw [h.scopes] at h'
      simpa [Stmt.references, Stmt.resolve, Stmt.scopesAfter] using h.trans h'
  | .classDecl name methods, st => by
      have h := (walks_introduce st name).trans (walks_enter (st.introduce name) [(thisName, true)])
      have h' := h.trans (FunctionDecl.resolveMethods_walks methods _)
      have h'' := h'.trans (walks_leave _)
      rw [h'.scopes, h.scopes, List.tail_cons, (walks_introduce st name).scopes] at h''
      simpa [Stmt.references, Stmt.resolve, Stmt.scopesAfter] using h''
  | .ret line none, st => walks_checkReturn site line false st
  | .ret line (some value), st =>
      (walks_checkReturn site line true st).andThen (value.resolve_walks site _)
theorem Stmt.resolveAll_walks (site : Site) : ∀ (ss : List Stmt) (st : Resolution),
    Walks (Reference.ids (Stmt.referencesAll ss)) (Stmt.scopesAfterAll ss st.scopes) st
      (Stmt.resolveAll site ss st)
  | [], st => walks_refl st
  | s :: ss, st => by
      have h := s.resolve_walks site st
      have h' := Stmt.resolveAll_walks site ss (s.resolve site st)
      rw [h.scopes] at h'
      simpa [Stmt.referencesAll, Stmt.resolveAll] using h.trans h'
theorem FunctionDecl.resolve_walks (site : Site) : ∀ (d : FunctionDecl) (st : Resolution),
    Walks (Reference.ids d.references) st.scopes st (d.resolve site st)
  | .mk _ params body, st => by
      have h := (walks_enter st []).trans (walks_parameters params (st.enter []) [] st.scopes rfl)
      have h' := h.trans (Stmt.resolveAll_walks site body _)
      have h'' := h'.trans (walks_leave _)
      obtain ⟨scope, hscope⟩ := Stmt.scopesAfterAll_inner body (parameterScope params) st.scopes
      rw [h'.scopes, h.scopes, ← parameterScope, hscope] at h''
      simpa [FunctionDecl.references, FunctionDecl.resolve] using h''
theorem FunctionDecl.resolveMethods_walks : ∀ (ms : List FunctionDecl) (st : Resolution),
    Walks (Reference.ids (FunctionDecl.referencesAll ms)) st.scopes st
      (FunctionDecl.resolveMethods ms st)
  | [], st => walks_refl st
  | m :: ms, st => by
      simpa [FunctionDecl.referencesAll, FunctionDecl.resolveMethods] using
        (m.resolve_walks _ st).andThen (FunctionDecl.resolveMethods_walks ms _)
end

end Scriptlet
