import Scriptlet.Proofs.Scoping.Guards
import Scriptlet.Proofs.Scoping.Resolver

/-!
# Resolved programs are scoped

* `Resolves L refs st st'` — a walk over fresh references ended without an error, and the layout agrees
  with what it filed.
* `Filed` — a reference is filed at the distance of the innermost scope that declares its name, and a
  variable that is read is not the one being declared.
* `Complete Γ` — no declaration is pending in the scopes.

Principal results: `Expr.resolve_filed` — a resolved expression is filed; `Stmt.resolve_scoped` — a resolved
statement is scoped, strictly so if it is guarded and shaped.
-/

set_option autoImplicit false

namespace Scriptlet

open Resolution

/-- A walk over fresh references that ended without an error, as the layout has it. -/
structure Resolves (L : Layout) (refs : List Reference) (st st' : Resolution) : Prop where
  errors : st'.errors = []
  nodup : (Reference.ids refs).Nodup
  absent : ∀ id ∈ Reference.ids refs, st.table.distance? id = none
  bounded : ∀ id ∈ Reference.ids refs, id < L.bound
  settled : ∀ id ∈ Reference.ids refs, L.table.distance? id = st'.table.distance? id

namespace Resolves

variable {L : Layout} {refs refs₁ refs₂ : List Reference} {Γ₁ Γ₂ : ScopeStack}
  {st st₁ st₂ : Resolution}

theorem perm (h : Resolves L refs₁ st st₁) (hp : refs₁.Perm refs₂) : Resolves L refs₂ st st₁ := by
  have hids : (Reference.ids refs₁).Perm (Reference.ids refs₂) := hp.map _
  exact ⟨h.errors, hids.nodup_iff.mp h.nodup, fun id hid => h.absent id (hids.mem_iff.mpr hid),
    fun id hid => h.bounded id (hids.mem_iff.mpr hid),
    fun id hid => h.settled id (hids.mem_iff.mpr hid)⟩

/-- Neither part of a walk disturbs the other. -/
theorem split (w₁ : Walks (Reference.ids refs₁) Γ₁ st st₁) (w₂ : Walks (Reference.ids refs₂) Γ₂ st₁ st₂)
    (h : Resolves L (refs₁ ++ refs₂) st st₂) : Resolves L refs₁ st st₁ ∧ Resolves L refs₂ st₁ st₂ := by
  obtain ⟨he, hn, ha, hb, hs⟩ := h
  rw [Reference.ids_append] at hn ha hb hs
  obtain ⟨hn₁, hn₂, hdisjoint⟩ := List.nodup_append.mp hn
  refine ⟨⟨w₂.errors he, hn₁, fun id hid => ha id (List.mem_append_left _ hid),
    fun id hid => hb id (List.mem_append_left _ hid), fun id hid => ?_⟩,
    ⟨he, hn₂, fun id hid => ?_, fun id hid => hb id (List.mem_append_right _ hid),
      fun id hid => hs id (List.mem_append_right _ hid)⟩⟩
  · rw [hs id (List.mem_append_left _ hid)]
    exact w₂.frame id fun hid' => hdisjoint id hid id hid' rfl
  · rw [w₁.frame id fun hid' => hdisjoint id hid' id hid rfl]
    exact ha id (List.mem_append_right _ hid)

/-- Steps in front that file nothing. -/
theorem after (w : Walks [] Γ₁ st st₁) (h : Resolves L refs st st₂) : Resolves L refs st₁ st₂ :=
  ⟨h.errors, h.nodup, fun id hid => (w.frame id (by simp)).trans (h.absent id hid), h.bounded,
    h.settled⟩

/-- Steps at the end that file nothing. -/
theorem before (w : Walks [] Γ₁ st₁ st₂) (h : Resolves L refs st st₂) : Resolves L refs st st₁ :=
  ⟨w.errors h.errors, h.nodup, h.absent, h.bounded,
    fun id hid => (h.settled id hid).trans (w.frame id (by simp))⟩

end Resolves

/-- Whether a name is being declared in the innermost scope. -/
def ScopeStack.pending (Γ : ScopeStack) (name : String) : Bool :=
  Γ.head?.any fun scope => scope.lookup name == some false

/-- A reference is filed as it should be. -/
structure Filed (table : DistanceTable) (Γ : ScopeStack) (r : Reference) : Prop where
  distance : table.distance? r.id = Γ.findIdx? (·.declares r.name)
  ready : r.access = .read → r.name ≠ thisName → Γ.pending r.name = false

theorem filed_refer {L : Layout} {r : Reference} {st : Resolution}
    (h : Resolves L [r] st (st.refer r.id r.name))
    (hready : r.access = .read → r.name ≠ thisName → ScopeStack.pending st.scopes r.name = false) :
    Filed L.table st.scopes r := by
  refine ⟨?_, hready⟩
  rw [h.settled r.id (by simp)]
  unfold Resolution.refer
  split
  · rename_i hd
    simp [hd]
  · rename_i hd
    rw [h.absent r.id (by simp), hd]

/-- Two walks in the same scopes file their references. -/
theorem filed_append {L : Layout} {refs₁ refs₂ : List Reference} {st st₁ st₂ : Resolution}
    (w₁ : Walks (Reference.ids refs₁) st.scopes st st₁)
    (w₂ : Walks (Reference.ids refs₂) st₁.scopes st₁ st₂)
    (f₁ : Resolves L refs₁ st st₁ → ∀ r ∈ refs₁, Filed L.table st.scopes r)
    (f₂ : Resolves L refs₂ st₁ st₂ → ∀ r ∈ refs₂, Filed L.table st₁.scopes r)
    (h : Resolves L (refs₁ ++ refs₂) st st₂) : ∀ r ∈ refs₁ ++ refs₂, Filed L.table st.scopes r := by
  obtain ⟨h₁, h₂⟩ := h.split w₁ w₂
  intro r hr
  rcases List.mem_append.mp hr with hr | hr
  · exact f₁ h₁ r hr
  · exact w₁.scopes ▸ f₂ h₂ r hr

/-- A reference that is filed after the operands of its node. -/
theorem filed_cons {L : Layout} {refs : List Reference} {r : Reference} {st st₁ : Resolution}
    (w : Walks (Reference.ids refs) st.scopes st st₁)
    (f : Resolves L refs st st₁ → ∀ r ∈ refs, Filed L.table st.scopes r) (hr : r.access ≠ .read)
    (h : Resolves L (r :: refs) st (st₁.refer r.id r.name)) :
    ∀ r' ∈ r :: refs, Filed L.table st.scopes r' := by
  have w' : Walks (Reference.ids [r]) st₁.scopes st₁ (st₁.refer r.id r.name) := walks_refer st₁ r.id r.name
  have f' : Resolves L [r] st₁ (st₁.refer r.id r.name) → ∀ r' ∈ [r], Filed L.table st₁.scopes r' := by
    intro h' r' hr'
    rw [List.mem_singleton.mp hr']
    exact filed_refer h' fun hread => absurd hread hr
  have hp : ([r] ++ refs).Perm (refs ++ [r]) := List.perm_append_comm
  intro r' hr'
  exact filed_append w w' f f' (h.perm hp) r' (hp.mem_iff.mp hr')

mutual
/-- **The references of a resolved expression are filed.** -/
theorem Expr.resolve_filed (site : Site) {L : Layout} : ∀ (e : Expr) (st : Resolution),
    Resolves L e.references st (e.resolve site st) →
      ∀ r ∈ e.references, Filed L.table st.scopes r
  | .lit _, _, _ => by simp [Expr.references]
  | .group inner, st, h => inner.resolve_filed site st h
  | .unary _ operand, st, h => operand.resolve_filed site st h
  | .binary _ left right, st, h | .logical _ left right, st, h =>
      filed_append (left.resolve_walks site st) (right.resolve_walks site _)
        (left.resolve_filed site st) (right.resolve_filed site _) h
  | .ternary test whenTrue whenFalse, st, h =>
      have w := (test.resolve_walks site st).andThen (whenTrue.resolve_walks site _)
      filed_append (by simpa using w) (whenFalse.resolve_walks site _)
        (filed_append (test.resolve_walks site st) (whenTrue.resolve_walks site _)
          (test.resolve_filed site st) (whenTrue.resolve_filed site _))
        (whenFalse.resolve_filed site _) h
  | .var id name, st, h => by
      have hpending : st.isPending name.name = false := by
        have he := (walks_refer _ id name.name).errors h.errors
        cases hp : st.isPending name.name with
        | false => rfl
        | true => simp [hp, Resolution.report] at he
      rw [Expr.resolve, hpending] at h
      simpa [Expr.references] using filed_refer h fun _ _ => hpending
  | .assign _ _ value, st, h =>
      filed_cons (value.resolve_walks site st) (value.resolve_filed site st) (by simp) h
  | .update _ _ _ operand, st, h =>
      filed_cons (operand.resolve_walks site st) (operand.resolve_filed site st) (by simp) h
  | .this id line, st, h => by
      rw [Expr.resolve] at h
      split at h
      · simpa [Expr.references] using filed_refer h (by simp)
      · exact absurd h.errors (by simp [Resolution.report])
  | .array items, st, h => Expr.resolveAll_filed site items st h
  | .index target _ position, st, h =>
      filed_append (target.resolve_walks site st) (position.resolve_walks site _)
        (target.resolve_filed site st) (position.resolve_filed site _) h
  | .call callee _ args, st, h =>
      filed_append (callee.resolve_walks site st) (Expr.resolveAll_walks site args _)
        (callee.resolve_filed site st) (Expr.resolveAll_filed site args _) h
  | .get object _, st, h => object.resolve_filed site st h
  | .set object _ value, st, h => by
      have hf := filed_append (value.resolve_walks site st) (object.resolve_walks site _)
        (value.resolve_filed site st) (object.resolve_filed site _)
        (h.perm List.perm_append_comm)
      simpa [Expr.references, and_comm, or_imp, forall_and] using hf
theorem Expr.resolveAll_filed (site : Site) {L : Layout} : ∀ (es : List Expr) (st : Resolution),
    Resolves L (Expr.referencesAll es) st (Expr.resolveAll site es st) →
      ∀ r ∈ Expr.referencesAll es, Filed L.table st.scopes r
  | [], _, _ => by simp [Expr.referencesAll]
  | e :: es, st, h =>
      filed_append (e.resolve_walks site st) (Expr.resolveAll_walks site es _)
        (e.resolve_filed site st) (Expr.resolveAll_filed site es _) h
end

/-! ## Pending declarations -/

/-- No declaration is pending. -/
def Complete (Γ : ScopeStack) : Prop := ∀ scope ∈ Γ, ∀ name, scope.lookup name ≠ some false

theorem complete_nil : Complete [] := by simp [Complete]

theorem Complete.cons {Γ : ScopeStack} {scope : NameScope} (h : Complete Γ)
    (hscope : ∀ name, scope.lookup name ≠ some false) : Complete (scope :: Γ) := by
  intro s hs
  rcases List.mem_cons.mp hs with rfl | hs
  · exact hscope
  · exact h s hs

theorem lookup_introduced {scope : NameScope} {name : String}
    (h : ∀ name, scope.lookup name ≠ some false) :
    ∀ name', ((name, true) :: (name, false) :: scope : NameScope).lookup name' ≠ some false := by
  intro name'
  by_cases hname : name' = name
  · rw [hname, List.lookup_cons_self]
    decide
  · rw [List.lookup_cons, List.lookup_cons, beq_false_of_ne hname]
    exact h name'

theorem Complete.introduce {Γ : ScopeStack} (h : Complete Γ) (name : Ident) :
    Complete (Γ.introduce name) := by
  cases Γ with
  | nil => exact h
  | cons scope Γ =>
      refine Complete.cons (fun s hs => h s (List.mem_cons_of_mem _ hs)) ?_
      exact lookup_introduced (h scope List.mem_cons_self)

theorem Complete.scopesAfter {Γ : ScopeStack} (h : Complete Γ) (s : Stmt) :
    Complete (s.scopesAfter Γ) := by
  fun_induction Stmt.scopesAfter s Γ with
  | case1 | case2 | case3 => exact h.introduce _
  | case4 _ _ _ ih | case6 _ _ _ ih => exact ih h
  | case5 _ _ _ _ ih₁ ih₂ => exact ih₂ (ih₁ h)
  | case7 => exact h

theorem complete_parameters {Γ : ScopeStack} (h : Complete Γ) (params : List Ident) :
    Complete (parameterScope params :: Γ) := by
  have hfold : ∀ scope : NameScope, (∀ name, scope.lookup name ≠ some false) → ∀ name,
      (params.foldl (fun scope param => (param.name, true) :: (param.name, false) :: scope)
        scope).lookup name ≠ some false := by
    induction params with
    | nil => exact fun scope hscope => hscope
    | cons param params ih => exact fun scope hscope => ih _ (lookup_introduced hscope)
  exact h.cons (hfold [] (by simp))

/-! ## From filed to placed -/

theorem Filed.places {L : Layout} {Γ : ScopeStack} {r : Reference} (h : Filed L.table Γ r)
    (hbound : r.id < L.bound)
    (hready : L.strict = true → r.access ≠ .write → ∀ scope ∈ Γ, scope.lookup r.name ≠ some false) :
    L.Places Γ r := by
  refine ⟨hbound, fun distance hd => ?_⟩
  rw [h.distance, List.findIdx?_eq_some_iff_getElem] at hd
  obtain ⟨hlt, hdeclares, -⟩ := hd
  refine ⟨Γ[distance], List.getElem?_eq_getElem hlt, fun hs hw => ?_⟩
  have hfalse := hready hs hw _ (List.getElem_mem hlt)
  unfold NameScope.declares at hdeclares
  cases hlookup : Γ[distance].lookup r.name with
  | none => simp [hlookup] at hdeclares
  | some complete =>
      cases complete with
      | true => rfl
      | false => exact absurd hlookup hfalse

/-- A resolved expression is placed in scopes without pending declarations. -/
theorem Expr.resolve_places {site : Site} {L : Layout} {e : Expr} {st : Resolution}
    (h : Resolves L e.references st (e.resolve site st)) (hΓ : L.strict = true → Complete st.scopes) :
    L.PlacesAll st.scopes e.references := fun r hr =>
  (e.resolve_filed site st h r hr).places (h.bounded _ (Reference.mem_ids hr))
    fun hs _ scope hscope => hΓ hs scope hscope r.name

/-- The initializer of a variable that it does not update is placed. -/
theorem Expr.resolve_places_initializer {site : Site} {L : Layout} {e : Expr} {name : String}
    {Γ : ScopeStack} {st : Resolution} (hst : st.scopes = Γ.mark name false)
    (h : Resolves L e.references st (e.resolve site st)) (hthis : L.strict = true → name ≠ thisName)
    (hΓ : L.strict = true → Complete Γ)
    (hupdates : L.strict = true → Γ ≠ [] → e.updates name = false) :
    L.PlacesAll (Γ.mark name false) e.references := by
  intro r hr
  have hfiled := e.resolve_filed site st h r hr
  rw [hst] at hfiled
  refine hfiled.places (h.bounded _ (Reference.mem_ids hr)) fun hs hw scope hscope => ?_
  cases Γ with
  | nil => simp at hscope
  | cons inner outer =>
      have hcomplete := hΓ hs
      rcases List.mem_cons.mp hscope with rfl | hscope
      · -- the scope of the declaration: the reference is not to the pending name
        have hne : r.name ≠ name := by
          rintro rfl
          cases haccess : r.access with
          | read =>
              have hready := hfiled.ready haccess (hthis hs)
              simp [ScopeStack.pending, ScopeStack.mark] at hready
          | write => exact hw haccess
          | update =>
              have hnone := hupdates hs (by simp)
              unfold Expr.updates at hnone
              rw [List.any_eq_false] at hnone
              exact hnone r hr (by simp [haccess])
        rw [List.lookup_cons, show (r.name == name) = false by simpa using hne]
        exact hcomplete inner List.mem_cons_self r.name
      · exact hcomplete scope (List.mem_cons_of_mem _ hscope) r.name

/-! ## Statements -/

/-- What a strict layout asks of a statement in the given scopes. -/
structure Stmt.Admitted (Γ : ScopeStack) (s : Stmt) : Prop where
  complete : Complete Γ
  guarded : s.guarded (!Γ.isEmpty) = true
  shaped : s.shaped = true

/-- What a strict layout asks of statements in the given scopes. -/
structure Stmt.AdmittedAll (Γ : ScopeStack) (ss : List Stmt) : Prop where
  complete : Complete Γ
  guarded : Stmt.guardedAll (!Γ.isEmpty) ss = true
  shaped : Stmt.shapedAll ss = true

/-- A guarded branch or loop body is admitted and leaves the scopes as they are. -/
theorem Stmt.admitted_branch {Γ : ScopeStack} {s : Stmt} (hc : Complete Γ)
    (hg : (s.mayBranch (!Γ.isEmpty) && s.guarded (!Γ.isEmpty)) = true)
    (hs : (!s.isVariableDecl && s.shaped) = true) : s.Admitted Γ ∧ s.scopesAfter Γ = Γ := by
  rw [Bool.and_eq_true] at hg hs
  rw [Bool.not_eq_true'] at hs
  refine ⟨⟨hc, hg.2, hs.2⟩, ?_⟩
  cases Γ with
  | nil => exact Stmt.scopesAfter_nil s
  | cons scope Γ => exact s.scopesAfter_of_guarded _ hg.2 hs.2 hg.1 hs.1

theorem isEmpty_scopesAfter (s : Stmt) (Γ : ScopeStack) :
    (s.scopesAfter Γ).isEmpty = Γ.isEmpty := by
  cases Γ with
  | nil => simp
  | cons scope Γ =>
      obtain ⟨scope', h⟩ := s.scopesAfter_inner scope Γ
      rw [h]
      rfl

theorem Stmt.AdmittedAll.head {Γ : ScopeStack} {s : Stmt} {ss : List Stmt}
    (h : Stmt.AdmittedAll Γ (s :: ss)) : s.Admitted Γ := by
  have hg := h.guarded
  have hs := h.shaped
  simp only [Stmt.guardedAll, Stmt.shapedAll, Bool.and_eq_true] at hg hs
  exact ⟨h.complete, hg.1, hs.1⟩

theorem Stmt.AdmittedAll.tail {Γ : ScopeStack} {s : Stmt} {ss : List Stmt}
    (h : Stmt.AdmittedAll Γ (s :: ss)) : Stmt.AdmittedAll (s.scopesAfter Γ) ss := by
  have hg := h.guarded
  have hs := h.shaped
  simp only [Stmt.guardedAll, Stmt.shapedAll, Bool.and_eq_true] at hg hs
  exact ⟨h.complete.scopesAfter s, by rw [isEmpty_scopesAfter]; exact hg.2, hs.2⟩

/-- What a strict layout asks of a function declared in the given scopes. -/
structure FunctionDecl.Admitted (Γ : ScopeStack) (d : FunctionDecl) : Prop where
  complete : Complete Γ
  guarded : d.guarded = true
  shaped : d.shaped = true

/-- What a strict layout asks of functions declared in the given scopes. -/
structure FunctionDecl.AdmittedAll (Γ : ScopeStack) (ds : List FunctionDecl) : Prop where
  complete : Complete Γ
  guarded : FunctionDecl.guardedAll ds = true
  shaped : FunctionDecl.shapedAll ds = true

theorem FunctionDecl.AdmittedAll.head {Γ : ScopeStack} {d : FunctionDecl} {ds : List FunctionDecl}
    (h : FunctionDecl.AdmittedAll Γ (d :: ds)) : d.Admitted Γ := by
  have hg := h.guarded
  have hs := h.shaped
  simp only [FunctionDecl.guardedAll, FunctionDecl.shapedAll, Bool.and_eq_true] at hg hs
  exact ⟨h.complete, hg.1, hs.1⟩

theorem FunctionDecl.AdmittedAll.tail {Γ : ScopeStack} {d : FunctionDecl} {ds : List FunctionDecl}
    (h : FunctionDecl.AdmittedAll Γ (d :: ds)) : FunctionDecl.AdmittedAll Γ ds := by
  have hg := h.guarded
  have hs := h.shaped
  simp only [FunctionDecl.guardedAll, FunctionDecl.shapedAll, Bool.and_eq_true] at hg hs
  exact ⟨h.complete, hg.2, hs.2⟩

mutual
/-- **A resolved statement is scoped.** -/
theorem Stmt.resolve_scoped (site : Site) {L : Layout} : ∀ (s : Stmt) (st : Resolution),
    Resolves L s.references st (s.resolve site st) → (L.strict = true → s.Admitted st.scopes) →
      s.Scoped L st.scopes
  | .expr _, _, h, ha => Expr.resolve_places h fun hs => (ha hs).complete
  | .print _, _, h, ha => Expr.resolve_places h fun hs => (ha hs).complete
  | .var _ none, _, _, _ => fun r hr => by simp [Expr.referencesOpt] at hr
  | .var name (some init), st, h, ha =>
      have hd := walks_declare st name
      Expr.resolve_places_initializer hd.scopes ((h.after hd).before (walks_mark _ _ true))
        (fun hs => of_decide_eq_true (ha hs).shaped) (fun hs => (ha hs).complete)
        fun hs hΓ => by
          have hg := (ha hs).guarded
          simpa [Stmt.guarded, hΓ] using hg
  | .block body, st, h, ha =>
      Stmt.resolveAll_scoped site body (st.enter []) ((h.after (walks_enter st [])).before
        (walks_leave _)) fun hs =>
          ⟨(ha hs).complete.cons (by simp), (ha hs).guarded, (ha hs).shaped⟩
  | .ifElse test whenTrue none, st, h, ha => by
      have w := test.resolve_walks site st
      obtain ⟨ht, hb⟩ := h.split w (whenTrue.resolve_walks site _)
      have hbranch : L.strict = true → whenTrue.Admitted st.scopes ∧
          whenTrue.scopesAfter st.scopes = st.scopes := fun hs =>
        Stmt.admitted_branch (ha hs).complete (ha hs).guarded (ha hs).shaped
      refine ⟨Expr.resolve_places ht fun hs => (ha hs).complete, ?_, fun hs => (hbranch hs).2⟩
      have hscoped := whenTrue.resolve_scoped site _ hb fun hs => by rw [w.scopes]; exact (hbranch hs).1
      rwa [w.scopes] at hscoped
  | .ifElse test whenTrue (some whenFalse), st, h, ha => by
      have w := test.resolve_walks site st
      have w₁ := whenTrue.resolve_walks site (test.resolve site st)
      have w₂ := whenFalse.resolve_walks site (whenTrue.resolve site (test.resolve site st))
      rw [w.scopes] at w₁
      obtain ⟨hta, hb⟩ := h.split (by simpa using w.trans w₁) w₂
      obtain ⟨ht, ha'⟩ := hta.split w w₁
      have hbranch : L.strict = true → (whenTrue.Admitted st.scopes ∧
          whenTrue.scopesAfter st.scopes = st.scopes) ∧ whenFalse.Admitted st.scopes ∧
          whenFalse.scopesAfter st.scopes = st.scopes := fun hs => by
        obtain ⟨hc, hg, hsh⟩ := ha hs
        obtain ⟨hg₁, hg₂⟩ := Bool.and_eq_true_iff.mp hg
        obtain ⟨hs₁, hs₂⟩ := Bool.and_eq_true_iff.mp hsh
        exact ⟨Stmt.admitted_branch hc hg₁ hs₁, Stmt.admitted_branch hc hg₂ hs₂⟩
      refine ⟨Expr.resolve_places ht fun hs => (ha hs).complete, ?_, ?_, fun hs =>
        ⟨(hbranch hs).1.2, (hbranch hs).2.2⟩⟩
      · have hscoped := whenTrue.resolve_scoped site _ ha' fun hs => by rw [w.scopes]; exact (hbranch hs).1.1
        rwa [w.scopes] at hscoped
      · have hscoped := whenFalse.resolve_scoped site _ hb fun hs => by
          rw [w₁.scopes, (hbranch hs).1.2]; exact (hbranch hs).2.1
        rwa [w₁.scopes] at hscoped
  | .whileLoop test body, st, h, ha => by
      have w := test.resolve_walks site st
      obtain ⟨ht, hb⟩ := h.split w (body.resolve_walks site _)
      have hbranch : L.strict = true → body.Admitted st.scopes ∧
          body.scopesAfter st.scopes = st.scopes := fun hs =>
        Stmt.admitted_branch (ha hs).complete (ha hs).guarded (ha hs).shaped
      refine ⟨Expr.resolve_places ht fun hs => (ha hs).complete, ?_, fun hs => (hbranch hs).2⟩
      have hscoped := body.resolve_scoped site _ hb fun hs => by rw [w.scopes]; exact (hbranch hs).1
      rwa [w.scopes] at hscoped
  | .function decl, st, h, ha => by
      have w := walks_introduce st decl.name
      have hscoped := decl.resolve_scoped ⟨.function, site.inClass⟩ (st.introduce decl.name) (h.after w)
        fun hs => by
          rw [w.scopes]
          exact ⟨(ha hs).complete.introduce _, (ha hs).guarded, (ha hs).shaped⟩
      rwa [w.scopes] at hscoped
  | .classDecl name methods, st, h, ha => by
      have w := walks_introduce st name
      have w' := walks_enter (st.introduce name) [(thisName, true)]
      have hscoped := FunctionDecl.resolveMethods_scoped methods _
        (((h.after w).after w').before (walks_leave _)) fun hs => by
          rw [w'.scopes, w.scopes]
          refine ⟨((ha hs).complete.introduce _).cons ?_, (ha hs).guarded, (ha hs).shaped⟩
          intro name
          rw [List.lookup_cons]
          split <;> simp
      rwa [w'.scopes, w.scopes] at hscoped
  | .ret _ none, _, _, _ => fun r hr => by simp [Expr.referencesOpt] at hr
  | .ret line (some value), st, h, ha => by
      have w := walks_checkReturn site line true st
      have hplaced := Expr.resolve_places (h.after w) fun hs => by
        rw [w.scopes]; exact (ha hs).complete
      rwa [w.scopes] at hplaced
theorem Stmt.resolveAll_scoped (site : Site) {L : Layout} : ∀ (ss : List Stmt) (st : Resolution),
    Resolves L (Stmt.referencesAll ss) st (Stmt.resolveAll site ss st) →
      (L.strict = true → Stmt.AdmittedAll st.scopes ss) → Stmt.ScopedAll L st.scopes ss
  | [], _, _, _ => trivial
  | s :: ss, st, h, ha => by
      have w := s.resolve_walks site st
      obtain ⟨h₁, h₂⟩ := h.split w (Stmt.resolveAll_walks site ss _)
      have hrest := Stmt.resolveAll_scoped site ss _ h₂ fun hs => by
        rw [w.scopes]; exact (ha hs).tail
      rw [w.scopes] at hrest
      exact ⟨s.resolve_scoped site st h₁ fun hs => (ha hs).head, hrest⟩
theorem FunctionDecl.resolve_scoped (site : Site) {L : Layout} :
    ∀ (d : FunctionDecl) (st : Resolution), Resolves L d.references st (d.resolve site st) →
      (L.strict = true → d.Admitted st.scopes) → d.Scoped L st.scopes
  | .mk _ params body, st, h, ha => by
      have w := walks_enter st []
      have w' := walks_parameters params (st.enter []) [] st.scopes rfl
      have hscoped := Stmt.resolveAll_scoped site body _ (((h.after w).after w').before (walks_leave _))
        fun hs => by
          rw [w'.scopes]
          exact ⟨complete_parameters (ha hs).complete params, (ha hs).guarded, (ha hs).shaped⟩
      rwa [w'.scopes] at hscoped
theorem FunctionDecl.resolveMethods_scoped {L : Layout} :
    ∀ (ms : List FunctionDecl) (st : Resolution),
      Resolves L (FunctionDecl.referencesAll ms) st (FunctionDecl.resolveMethods ms st) →
      (L.strict = true → FunctionDecl.AdmittedAll st.scopes ms) →
      FunctionDecl.ScopedAll L st.scopes ms
  | [], _, _, _ => trivial
  | m :: ms, st, h, ha => by
      have w := m.resolve_walks ⟨.ofMethod m.name.name, true⟩ st
      obtain ⟨h₁, h₂⟩ := h.split w (FunctionDecl.resolveMethods_walks ms _)
      have hrest := FunctionDecl.resolveMethods_scoped ms _ h₂ fun hs => by
        rw [w.scopes]; exact (ha hs).tail
      rw [w.scopes] at hrest
      exact ⟨m.resolve_scoped _ st h₁ fun hs => (ha hs).head, hrest⟩
end

/-- **A program without static errors is scoped, strictly so if it is guarded and shaped.** -/
theorem resolve_scoped {L : Layout} {table : DistanceTable} {p : Program}
    (herrors : (resolve table p).errors = [])
    (hnodup : (Reference.ids (Stmt.referencesAll p)).Nodup)
    (habsent : ∀ id ∈ Reference.ids (Stmt.referencesAll p), table.distance? id = none)
    (hbound : ∀ id ∈ Reference.ids (Stmt.referencesAll p), id < L.bound)
    (htable : L.table = (resolve table p).table)
    (hstrict : L.strict = true → Program.guarded p = true ∧ Stmt.shapedAll p = true) :
    Stmt.ScopedAll L [] p := by
  have h : Resolves L (Stmt.referencesAll p) ⟨[], table, []⟩
      (Stmt.resolveAll ⟨.none, false⟩ p ⟨[], table, []⟩) :=
    ⟨herrors, hnodup, habsent, hbound, fun id _ => by rw [htable]; rfl⟩
  exact Stmt.resolveAll_scoped _ p _ h fun hs => ⟨complete_nil, (hstrict hs).1, (hstrict hs).2⟩

end Scriptlet
